import Cosiris.Lib.Bytes
import Mathlib.Data.Int.Notation

/-!
# Frames in the ring of the card

The card stores a header of four bytes and a frame in pages of its memory, and goes on at
the first page of the ring after the last one. `ne2000_recv_frame` reads the frame in two
parts when it ends past the ring; it counts pages without the header and reads up to the
end as if there were none, so that it reads past the ring. A frame is read as it was
stored exactly when it ends within the ring.
-/

namespace Cosiris.Ne2000

/-- The driver and the card: whether it is up, its memory, whether a remote read goes on at the
start of the ring by itself, the registers CURR and BNRY, the remote reads so far (address and
count), the queue of received buffers and whether there is memory for another one. -/
structure Ne where
  up : Bool
  ram : ℕ → UInt8
  wraps : Bool
  curr : ℕ
  bnry : ℕ
  reads : List (ℤ × ℤ)
  netq : List (List UInt8)
  memory : Bool
  recv : ℕ
  recvOverruns : ℕ

/-- `NE_PG_SIZE`. -/
def pgSize : ℕ := 256

/-- `RX_START`, the value of `rx_pstart`. -/
def rxPstart : ℕ := 0x48

/-- `RX_STOP`, the value of `rx_pstop`. -/
def rxPstop : ℕ := 0x80

/-- `NETQ_MAX_ITEMS`. -/
def netqMaxItems : ℕ := 256

namespace Ne

/-- The address from which a remote read at `a` takes byte `k`. -/
def remoteAddr (s : Ne) (a : ℕ) : ℕ → ℕ
  | 0 => a
  | k + 1 =>
    if s.wraps ∧ s.remoteAddr a k + 1 = rxPstop * pgSize then rxPstart * pgSize
    else s.remoteAddr a k + 1

/-- `ne2000_get` of `size` bytes at `neAddr`. -/
def get (neAddr size : ℤ) (s : Ne) : List UInt8 × Ne :=
  if s.up then
    ((List.range size.toNat).map fun k => s.ram (s.remoteAddr neAddr.toNat k),
      { s with reads := s.reads ++ [(neAddr, size)] })
  else ([], s)

/-- `net_buf_alloc` finds room in the queue and memory. -/
def HasRoom (s : Ne) : Prop := s.netq.length < netqMaxItems ∧ s.memory = true

instance (s : Ne) : Decidable s.HasRoom := inferInstanceAs (Decidable (_ ∧ _))

/-- `netq_push`, with what follows it in `ne2000_recv_frame`. -/
def netqPush (data : List UInt8) (s : Ne) : Ne :=
  if netqMaxItems ≤ s.netq.length then s
  else { s with netq := s.netq ++ [data], recv := s.recv + 1 }

/-- `ne2000_recv_frame`. -/
def recvFrame (page size : ℤ) (s : Ne) : Ne :=
  if ¬s.up then s
  else if ¬s.HasRoom then s
  else
    let pgEnd := page + size.tdiv pgSize
    if pgEnd ≥ rxPstop then
      let size1 := (rxPstop - page) * pgSize
      let (first, s) := s.get (page * pgSize + 4) size1
      let (rest, s) := s.get (rxPstart * pgSize) (size - size1)
      s.netqPush (first ++ rest)
    else
      let (data, s) := s.get (page * pgSize + 4) size
      s.netqPush data

/-- The page after BNRY. -/
def page (s : Ne) : ℕ := if s.bnry + 1 = rxPstop then rxPstart else s.bnry + 1

/-- The page before a page, as it is written to BNRY. -/
def before (next : ℤ) : ℤ := if next = rxPstart then rxPstop - 1 else next - 1

/-- One round of the loop of `ne2000_recv`; `none` when there is nothing to read. The received
header has the fields `stat`, `next`, `rbcl` and `rbch`. -/
def recvRound (s : Ne) : Option Ne :=
  let bnry := s.page
  if s.curr = bnry then none
  else
    let (hdr, s) := s.get (bnry * pgSize) 4
    let stat := hdr.getD 0 0
    let size : ℤ := ((hdr.getD 3 0).toNat <<< 8 ||| (hdr.getD 2 0).toNat : ℕ) - 4
    let next : ℤ := (hdr.getD 1 0).toNat
    let (next, s) :=
      if size < 60 ∨ size > 1518 then ((s.curr : ℤ), s)
      else if next < rxPstart ∨ next > rxPstop then (s.curr, s)
      else if stat &&& 8 ≠ 0 then (s.curr, { s with recvOverruns := s.recvOverruns + 1 })
      else if stat &&& 1 ≠ 0 then (next, s.recvFrame bnry size)
      else (next, s)
    some { s with bnry := ((before next) % 256).toNat }

/-- `ne2000_recv`, for a number of rounds. -/
def receive : ℕ → Ne → Option Ne
  | 0, _ => none
  | rounds + 1, s =>
    if ¬s.up then some s
    else
      match s.recvRound with
      | none => some s
      | some s => receive rounds s

end Ne

/-! ### A frame in the ring -/

/-- The address of byte `k` from a page on, in the ring. -/
def ringAddr (page k : ℕ) : ℕ :=
  if page * pgSize + k < rxPstop * pgSize then page * pgSize + k
  else page * pgSize + k - (rxPstop - rxPstart) * pgSize

/-- The card stored a header and a frame at a page. The next frame is at page `next`. -/
structure Stored (s : Ne) (page next : ℕ) (frame : List UInt8) : Prop where
  pageIn : rxPstart ≤ page ∧ page < rxPstop
  nextIn : rxPstart ≤ next ∧ next ≤ rxPstop
  size : 60 ≤ frame.length ∧ frame.length ≤ 1518
  prx : s.ram (page * pgSize) &&& 1 ≠ 0
  noFo : s.ram (page * pgSize) &&& 8 = 0
  hdrNext : (s.ram (page * pgSize + 1)).toNat = next
  count : (s.ram (page * pgSize + 3)).toNat * 256 + (s.ram (page * pgSize + 2)).toNat =
      frame.length + 4
  bytes : ∀ k < frame.length, s.ram (ringAddr page (4 + k)) = frame.getD k 0

/-- A remote read within the ring. -/
def InRing (r : ℤ × ℤ) : Prop :=
  0 ≤ r.2 ∧ rxPstart * pgSize ≤ r.1 ∧ r.1 + r.2 ≤ rxPstop * pgSize

/-- The frame that waits at the page after BNRY. -/
structure Waiting (s : Ne) (next : ℕ) (frame : List UInt8) : Prop where
  up : s.up = true
  notEmpty : s.curr ≠ s.page
  stored : Stored s s.page next frame

/-- The round of `ne2000_recv` does what it should: a buffer with the bytes of the frame is pushed,
every remote read is within the ring, and BNRY is the page before the next one. -/
def Right (s : Ne) (next : ℕ) (frame : List UInt8) : Prop :=
  ∃ s', s.recvRound = some s' ∧ s'.netq = s.netq ++ [frame] ∧
    (∃ rs, s'.reads = s.reads ++ rs ∧ ∀ r ∈ rs, InRing r) ∧
    s'.bnry = if next = rxPstart then rxPstop - 1 else next - 1

/-! ### Remote reads -/

section

variable {s : Ne} {a k n page next : ℕ} {frame : List UInt8}

theorem remoteAddr_eq (h : a + k < rxPstop * pgSize) : s.remoteAddr a k = a + k := by
  induction k with
  | zero => rfl
  | succ k ih =>
    have hk := ih (by omega)
    have hne : ¬(s.wraps = true ∧ s.remoteAddr a k + 1 = rxPstop * pgSize) := by
      rw [hk]
      omega
    rw [Ne.remoteAddr, if_neg hne, hk, Nat.add_assoc]

/-- The state after a remote read. -/
def Ne.asked (s : Ne) (r : ℤ × ℤ) : Ne := { s with reads := s.reads ++ [r] }

theorem get_snd (hup : s.up = true) (a n : ℤ) : (s.get a n).2 = s.asked (a, n) := by
  rw [Ne.get, if_pos hup]
  rfl

theorem reads_netqPush (data : List UInt8) : (s.netqPush data).reads = s.reads := by
  unfold Ne.netqPush
  split <;> rfl

/-- A remote read within the ring. -/
theorem get_eq (hup : s.up = true) (h : a + n ≤ rxPstop * pgSize) :
    s.get a n = (getBytes s.ram a n, s.asked (a, n)) := by
  have hbytes : (List.range n).map (fun k => s.ram (s.remoteAddr a k)) = getBytes s.ram a n :=
    List.map_congr_left fun k hk => by
      have hlt := List.mem_range.mp hk
      rw [remoteAddr_eq (by omega)]
  rw [Ne.get, if_pos hup, Int.toNat_natCast, Int.toNat_natCast, hbytes]
  rfl

/-- The bytes of a frame that ends within the ring. -/
theorem Stored.getBytes (h : Stored s page next frame)
    (hfit : page * pgSize + 4 + frame.length ≤ rxPstop * pgSize) :
    getBytes s.ram (page * pgSize + 4) frame.length = frame := by
  refine List.ext_getElem (by simp) fun k hk hk' => ?_
  have hin : page * pgSize + (4 + k) < rxPstop * pgSize := by omega
  have hbyte := h.bytes k hk'
  rw [ringAddr, if_pos hin, ← Nat.add_assoc, List.getD_eq_getElem _ _ hk'] at hbyte
  simp only [Cosiris.getBytes, List.getElem_map, List.getElem_range, hbyte]

/-! ### One frame -/

theorem recvFrame_fits (hup : s.up = true) (hroom : s.HasRoom)
    (hfit : page * pgSize + 4 + n ≤ rxPstop * pgSize) :
    s.recvFrame page n = { s.asked (page * pgSize + 4, n) with
      netq := s.netq ++ [getBytes s.ram (page * pgSize + 4) n], recv := s.recv + 1 } := by
  have hget := @get_eq s (page * pgSize + 4) n hup hfit
  have hend : ¬((page : ℤ) + (n : ℤ).tdiv pgSize ≥ rxPstop) := by
    have hdiv : (n : ℤ).tdiv pgSize = (n / pgSize : ℕ) := (Int.ofNat_tdiv n pgSize).symm
    rw [hdiv]
    simp only [rxPstop, pgSize] at *
    omega
  have haddr : ((page : ℤ) * pgSize + 4) = (page * pgSize + 4 : ℕ) := by simp
  have hfull : ¬netqMaxItems ≤ s.netq.length := Nat.not_le.mpr hroom.1
  unfold Ne.recvFrame
  rw [if_neg (by simp [hup]), if_neg (by simp [hroom]), if_neg hend, haddr, hget]
  exact if_neg hfull

/-- A frame that does not end within the ring is read past it. -/
theorem recvFrame_past (hup : s.up = true) (hroom : s.HasRoom)
    (hfit : rxPstop * pgSize < page * pgSize + 4 + n) :
    ∃ rs, (s.recvFrame page n).reads = s.reads ++ rs ∧ ∃ r ∈ rs, ¬InRing r := by
  unfold Ne.recvFrame
  rw [if_neg (by simp [hup]), if_neg (by simp [hroom])]
  by_cases hend : (page : ℤ) + (n : ℤ).tdiv pgSize ≥ rxPstop
  · -- the first part goes on for the four bytes of the header
    rw [if_pos hend]
    refine ⟨[(page * pgSize + 4, (rxPstop - page) * pgSize),
      (rxPstart * pgSize, n - (rxPstop - page) * pgSize)], ?_, _, List.mem_cons_self, fun hin => ?_⟩
    · rw [reads_netqPush, get_snd (by rw [get_snd hup]; exact hup), get_snd hup]
      simp [Ne.asked]
    · have := hin.2.2
      simp only [rxPstop, pgSize] at *
      omega
  · rw [if_neg hend]
    refine ⟨[(page * pgSize + 4, n)], ?_, _, List.mem_singleton_self _, fun hin => ?_⟩
    · rw [reads_netqPush, get_snd hup]
      rfl
    · have := hin.2.2
      simp only [rxPstop, pgSize] at *
      omega

/-- What a round does with the frame that waits. -/
theorem recvRound_eq (h : Waiting s next frame) :
    s.recvRound = some { (s.asked (s.page * pgSize, 4)).recvFrame s.page frame.length with
      bnry := if next = rxPstart then rxPstop - 1 else next - 1 } := by
  obtain ⟨hup, hne, hst⟩ := h
  obtain ⟨hlo, hhi⟩ := hst.pageIn
  obtain ⟨hnlo, hnhi⟩ := hst.nextIn
  have hget : s.get ((s.page : ℤ) * pgSize) 4 =
    ([s.ram (s.page * pgSize), s.ram (s.page * pgSize + 1),
      s.ram (s.page * pgSize + 2), s.ram (s.page * pgSize + 3)], s.asked (s.page * pgSize, 4)) := by
    have h := @get_eq s (s.page * pgSize) 4 hup (by simp only [rxPstop, pgSize] at *; omega)
    have hbytes : ∀ (m : ℕ → UInt8) p, getBytes m p 4 = [m p, m (p + 1), m (p + 2), m (p + 3)] :=
      fun m p => rfl
    rw [Int.natCast_mul, hbytes] at h
    exact h
  have hlow := (s.ram (s.page * pgSize + 2)).toNat_lt
  have hsize :
    ((s.ram (s.page * pgSize + 3)).toNat <<< 8 ||| (s.ram (s.page * pgSize + 2)).toNat : ℕ) =
      frame.length + 4 := by
    have hcount := hst.count
    rw [← Nat.shiftLeft_add_eq_or_of_lt hlow, Nat.shiftLeft_eq]
    omega
  have hlen : (((frame.length + 4 : ℕ) : ℤ) - 4) = frame.length := by omega
  have h60 : ¬((frame.length : ℤ) < 60 ∨ (frame.length : ℤ) > 1518) := by
    have := hst.size
    omega
  have hvalid : ¬((next : ℤ) < rxPstart ∨ (next : ℤ) > rxPstop) := by omega
  have hbnry : (Ne.before next % 256).toNat = if next = rxPstart then rxPstop - 1
    else next - 1 := by
    by_cases hn : next = rxPstart
    · subst hn
      rfl
    · have hn' : ¬(next : ℤ) = rxPstart := by omega
      rw [Ne.before, if_neg hn', if_neg hn]
      simp only [rxPstart, rxPstop] at *
      omega
  unfold Ne.recvRound
  simp only [hne, if_false, hget, List.getD_cons_zero, List.getD_cons_succ, hsize,
    hlen, hst.hdrNext, h60, hvalid, hst.noFo, hst.prx, hbnry, ne_eq, not_true_eq_false,
    not_false_iff, if_true]

theorem recvFrame_of_no_room (hroom : ¬s.HasRoom) : s.recvFrame page n = s := by
  unfold Ne.recvFrame
  by_cases hup : s.up = true
  · rw [if_neg (by simp [hup]), if_pos hroom]
  · rw [if_pos hup]

theorem fits_of_right (h : Waiting s next frame) (hr : Right s next frame) :
    s.HasRoom ∧ s.page * pgSize + 4 + frame.length ≤ rxPstop * pgSize := by
  have hup : (s.asked (s.page * pgSize, 4)).up = true := h.up
  obtain ⟨s', hs', hnetq, ⟨rs, hreads, hin⟩, -⟩ := hr
  rw [recvRound_eq h] at hs'
  cases hs'
  have hroom : s.HasRoom := by
    by_contra hno
    rw [recvFrame_of_no_room (s := s.asked _) hno] at hnetq
    have hlen := congrArg List.length hnetq
    simp [Ne.asked] at hlen
  refine ⟨hroom, Nat.le_of_not_lt fun hpast => ?_⟩
  obtain ⟨rs', hreads', r, hr, hout⟩ := recvFrame_past hup hroom hpast
  have hrs : rs = ((s.page : ℤ) * pgSize, (4 : ℤ)) :: rs' := by
    have := hreads.symm.trans hreads'
    rw [Ne.asked, List.append_assoc] at this
    exact List.append_cancel_left this
  exact hout (hin r (hrs ▸ List.mem_cons_of_mem _ hr))

theorem right_of_fits (h : Waiting s next frame) (hroom : s.HasRoom)
    (hfit : s.page * pgSize + 4 + frame.length ≤ rxPstop * pgSize) : Right s next frame := by
  have hup : (s.asked (s.page * pgSize, 4)).up = true := h.up
  have hpage := h.stored.pageIn
  have hround := recvRound_eq h
  have hbytes : getBytes (s.asked (s.page * pgSize, 4)).ram (s.page * pgSize + 4) frame.length =
    frame :=
    h.stored.getBytes hfit
  rw [recvFrame_fits hup hroom hfit, hbytes] at hround
  refine ⟨_, hround, rfl,
    ⟨[(s.page * pgSize, 4), (s.page * pgSize + 4, frame.length)], ?_, ?_⟩, rfl⟩
  · simp [Ne.asked]
  · intro r hr
    simp only [rxPstart, rxPstop, pgSize] at *
    simp only [List.mem_cons, List.not_mem_nil, or_false] at hr
    rcases hr with rfl | rfl <;> unfold InRing <;> simp only [rxPstart, rxPstop, pgSize] <;> omega

/-! ### Many frames -/

/-- Frames wait one after the other, each within the ring: `frames` has for each of them the page of
the next one. -/
def Queued (s : Ne) : List (ℕ × List UInt8) → Prop
  | [] => s.curr = s.page
  | (next, frame) :: frames =>
    Waiting s next frame ∧ s.page * pgSize + 4 + frame.length ≤ rxPstop * pgSize ∧
      Queued { s with bnry := if next = rxPstart then rxPstop - 1 else next - 1 } frames

theorem Queued.congr {s' : Ne} {frames : List (ℕ × List UInt8)} (h : Queued s frames)
    (hup : s'.up = s.up)
    (hram : s'.ram = s.ram) (hcurr : s'.curr = s.curr) (hbnry : s'.bnry = s.bnry) :
    Queued s' frames := by
  have hpage : s'.page = s.page := by rw [Ne.page, hbnry, Ne.page]
  induction frames generalizing s s' with
  | nil =>
    show s'.curr = s'.page
    rw [hcurr, hpage]
    exact h
  | cons f frames ih =>
    obtain ⟨hw, hfit, hrest⟩ := h
    obtain ⟨h1, h2, ⟨h3, h4, h5, h6, h7, h8, h9, h10⟩⟩ := hw
    refine ⟨⟨by rwa [hup], by rwa [hcurr, hpage], ?_⟩, by rwa [hpage],
      ih hrest hup hram hcurr rfl rfl⟩
    rw [hpage]
    exact ⟨h3, h4, h5, by rwa [hram], by rwa [hram], by rwa [hram], by rwa [hram], by rwa [hram]⟩

/-- `ne2000_recv` pushes the frames that wait, in their order, when each of them is within the ring
and the queue has room for all. -/
theorem receive_queued {frames : List (ℕ × List UInt8)} (hup : s.up = true) (hq : Queued s frames)
    (hmem : s.memory = true) (hroom : s.netq.length + frames.length ≤ netqMaxItems) :
    ∃ s', s.receive (frames.length + 1) = some s' ∧ s'.netq = s.netq ++ frames.map Prod.snd ∧
      s'.curr = s'.page := by
  induction frames generalizing s with
  | nil =>
    have hcurr : s.curr = s.page := hq
    have hnone : s.recvRound = none := if_pos hcurr
    refine ⟨s, ?_, by simp, hcurr⟩
    simp [Ne.receive, hup, hnone]
  | cons f frames ih =>
    obtain ⟨hw, hfit, hrest⟩ := hq
    rw [List.length_cons] at hroom
    have hhas : (s.asked (s.page * pgSize, 4)).HasRoom :=
      ⟨show s.netq.length < netqMaxItems by omega, hmem⟩
    have hround := recvRound_eq hw
    have hbytes :
      getBytes (s.asked (s.page * pgSize, 4)).ram (s.page * pgSize + 4) f.2.length = f.2 :=
      hw.stored.getBytes hfit
    rw [recvFrame_fits (s := s.asked _) hup hhas hfit, hbytes] at hround
    obtain ⟨t, ht⟩ : ∃ t, s.recvRound = some t := ⟨_, hround⟩
    rw [ht, Option.some.injEq] at hround
    have hnetq' : t.netq = s.netq ++ [f.2] := by rw [hround]; rfl
    have hq : Queued t frames := by
      rw [hround]
      exact hrest.congr rfl rfl rfl rfl
    obtain ⟨s', hs', hnetq, hcurr⟩ :=
      ih (by rw [hround]; exact hup) hq (by rw [hround]; exact hmem) (by
      rw [hnetq', List.length_append, List.length_singleton]
      omega)
    refine ⟨s', ?_, ?_, hcurr⟩
    · rw [List.length_cons, Ne.receive, if_neg (by simp [hup]), ht]
      exact hs'
    · rw [hnetq, hnetq']
      simp

end

/-- **When a frame is read as it was stored.** There is room for a buffer, and the frame with its
header ends within the ring. -/
theorem receive_right_iff (s : Ne) (next : ℕ) (frame : List UInt8) (h : Waiting s next frame) :
    Right s next frame ↔ s.HasRoom ∧ s.page * pgSize + 4 + frame.length ≤ rxPstop * pgSize :=
  ⟨fits_of_right h, fun hok => right_of_fits h hok.1 hok.2⟩

/-- A card with a frame of `n` zeros after the page in BNRY. -/
def oneFrame (bnry next n : ℕ) : Ne where
  up := true
  ram q :=
    if q = (bnry + 1) * pgSize then 1
    else if q = (bnry + 1) * pgSize + 1 then .ofNat next
    else if q = (bnry + 1) * pgSize + 2 then .ofNat (n + 4)
    else if q = (bnry + 1) * pgSize + 3 then .ofNat ((n + 4) / 256)
    else 0
  wraps := false
  curr := next
  bnry := bnry
  reads := []
  netq := []
  memory := true
  recv := 0
  recvOverruns := 0

/-- A frame of 60 bytes in the first page of the ring. -/
theorem receive_right_iff_short : Waiting (oneFrame 0x48 0x4a 60) 0x4a (List.replicate 60 0) ∧
    Right (oneFrame 0x48 0x4a 60) 0x4a (List.replicate 60 0) := by
  have h : Waiting (oneFrame 0x48 0x4a 60) 0x4a (List.replicate 60 0) :=
    ⟨rfl, by decide, by decide, by decide, by decide, by decide, by decide, by decide, by decide,
      by decide +kernel⟩
  exact ⟨h, (receive_right_iff _ _ _ h).mpr ⟨⟨by decide, rfl⟩, by decide⟩⟩

/-- A frame of 253 bytes in the last page of the ring. -/
theorem not_right_last_page :
    ¬∀ (s : Ne) (next : ℕ) (frame : List UInt8), Waiting s next frame → s.HasRoom →
      Right s next frame := by
  intro hall
  have h : Waiting (oneFrame 0x7e 0x49 253) 0x49 (List.replicate 253 0) :=
    ⟨rfl, by decide +kernel, by decide +kernel, by decide +kernel, by decide +kernel,
      by decide +kernel, by decide +kernel, by decide +kernel, by decide +kernel, by decide +kernel⟩
  exact absurd (fits_of_right h (hall _ _ _ h ⟨by decide +kernel, rfl⟩)).2 (by decide +kernel)

end Cosiris.Ne2000
