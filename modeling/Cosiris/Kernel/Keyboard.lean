import Cosiris.Lib.Ring

/-!
# The keyboard

`kbd.c`. A cursor key or a page key gives an escape, and queues the characters behind it in a ring
of 30 cells, from which `kbd_getc` takes them before it asks the keyboard for another code. The
positions of the ring are numbers of 8 bits that are compared as they are, so that the queue is lost
when the position of the writer starts again at 0.

A `char` is a number of 8 bits with a sign.
-/

namespace Cosiris.Keyboard

open Function Cosiris.Ring

/-- `KBD_BUF_OUT_SZ`. -/
def bufOutSz : ℕ := 30

/-- `kbd_stat`, `kbd_out`, and the code that the controller holds. -/
structure Kbd where
  stat : UInt8
  r : UInt8
  w : UInt8
  buf : ℕ → Int8
  port : Option UInt8

/-- The keyboard at boot. -/
def Kbd.boot : Kbd := ⟨0, 0, 0, fun _ => 0, none⟩

/-! ### Codes -/

/-- `KLC`. -/
def klc : UInt8 := 0x1D

/-- `KLS`. -/
def kls : UInt8 := 0x2A

/-- `KRS`. -/
def krs : UInt8 := 0x36

/-- `KLA`. -/
def kla : UInt8 := 0x38

/-- `KCL`. -/
def kcl : UInt8 := 0x3A

/-- `KNL`. -/
def knl : UInt8 := 0x45

/-- `KSL`. -/
def ksl : UInt8 := 0x46

/-- `KUP`. -/
def kup : UInt8 := 0x48

/-- `KPGUP`. -/
def kpgup : UInt8 := 0x49

/-- `KLFT`. -/
def klft : UInt8 := 0x4B

/-- `KRGT`. -/
def krgt : UInt8 := 0x4D

/-- `KDWN`. -/
def kdwn : UInt8 := 0x50

/-- `KPGDWN`. -/
def kpgdwn : UInt8 := 0x51

/-- `kbd_map`. The rest of the table is 0. -/
def kbdMap : List UInt8 := [
  0, 0x1b, 49, 50, 51, 52, 53, 54,
  55, 56, 57, 48, 45, 61, 8, 9,
  113, 119, 101, 114, 116, 121, 117, 105,
  111, 112, 91, 93, 13, klc, 97, 115,
  100, 102, 103, 104, 106, 107, 108, 59,
  39, 96, kls, 92, 122, 120, 99, 118,
  98, 110, 109, 44, 46, 47, krs, 42,
  kla, 32, kcl, 0x3B, 0x3C, 0x3D, 0x3E, 0x3F,
  0x40, 0x41, 0x42, 0x43, 0x44, knl, ksl, 0x47,
  kup, kpgup, 45, klft, 53, krgt, 43, 49,
  kdwn, kpgdwn, 48, 46, 0, 0, 0, 0x57,
  0x58, 0, 0, 0x2]

/-- `kbd_map_shift`. The rest of the table is 0. -/
def kbdMapShift : List UInt8 := [
  0, 0x1b, 33, 64, 35, 36, 37, 94,
  38, 42, 40, 41, 95, 43, 8, 9,
  81, 87, 69, 82, 84, 89, 85, 73,
  79, 80, 123, 125, 13, klc, 65, 83,
  68, 70, 71, 72, 74, 75, 76, 58,
  34, 126, kls, 124, 90, 88, 67, 86,
  66, 78, 77, 60, 62, 63, krs, 42,
  kla, 32, kcl, 0x3B, 0x3C, 0x3D, 0x3E, 0x3F,
  0x40, 0x41, 0x42, 0x43, 0x44, knl, ksl, 55,
  56, 57, 45, 52, 53, 54, 43, 49,
  50, 51, 48, 46, 0, 0, 0, 0x57,
  0x58]

/-- `KBD_SHIFT`. -/
def kbdShift : UInt8 := 1

/-- `KBD_CTRL`. -/
def kbdCtrl : UInt8 := 2

/-- `KBD_CAPS`. -/
def kbdCaps : UInt8 := 4

/-- `KBD_ALT`. -/
def kbdAlt : UInt8 := 8

/-- `KBD_NUML`. -/
def kbdNuml : UInt8 := 16

/-- `KBD_SCRLL`. -/
def kbdScrll : UInt8 := 32

/-! ### Reading the keyboard -/

/-- `kbd_wbuf`. -/
def kbdWbuf (s : Kbd) : List Int8 → Kbd
  | [] => s
  | c :: cs =>
    if (s.w.toNat : ℤ) - s.r.toNat < bufOutSz then
      kbdWbuf { s with buf := update s.buf (s.w.toNat % bufOutSz) c, w := s.w + 1 } cs
    else s

/-- A bit of the status goes with its key. -/
def hold (stat bit : UInt8) (isP : Bool) : UInt8 := if isP then stat ||| bit else stat &&& ~~~bit

/-- A bit of the status changes whenever its key is pressed. -/
def toggle (stat bit : UInt8) (isP : Bool) : UInt8 := if isP then stat ^^^ bit else stat

/-- The first `switch` of `kbd_getc`: the status behind a control key, and what is returned. -/
def control (stat c : UInt8) (isP : Bool) : Option (UInt8 × ℤ) :=
  if c = klc then some (hold stat kbdCtrl isP, 0)
  else if c = kls ∨ c = krs then some (hold stat kbdShift isP, 0)
  else if c = kla then some (hold stat kbdAlt isP, 0)
  else if c = kcl then some (toggle stat kbdCaps isP, -1)
  else if c = knl then some (toggle stat kbdNuml isP, -1)
  else if c = ksl then some (toggle stat kbdScrll isP, -1)
  else none

/-- The second `switch` of `kbd_getc`: what a cursor key or a page key queues. -/
def escapeOf (c : UInt8) : Option (List Int8) :=
  if c = kup then some [91, 65]
  else if c = kdwn then some [91, 66]
  else if c = krgt then some [91, 67]
  else if c = klft then some [91, 68]
  else if c = kpgup then some [91, 53, 126]
  else if c = kpgdwn then some [91, 54, 126]
  else none

/-- The character of another key. -/
def mapped (stat c : UInt8) : UInt8 :=
  if stat &&& kbdShift ≠ 0 then kbdMapShift.getD c.toNat 0
  else if stat &&& kbdCtrl ≠ 0 then
    let c := kbdMapShift.getD c.toNat 0
    if c < 65 ∨ 90 < c then 0 else c - 64
  else
    let c := kbdMap.getD c.toNat 0
    if stat &&& kbdCaps ≠ 0 ∧ 97 ≤ c ∧ c ≤ 122 then c - 97 + 65 else c

/-- A press event. -/
def isPress (code : UInt8) : Bool := code &&& 0x80 = 0

/-- The key of a code. -/
def keyOf (code : UInt8) : UInt8 := code &&& ~~~0x80

/-- `kbd_getc` with a code of the keyboard. -/
def scan (s : Kbd) (code : UInt8) : ℤ × Kbd :=
  match control s.stat (keyOf code) (isPress code) with
  | some (stat, v) => (v, { s with stat := stat })
  | none =>
    if ¬isPress code then (0, s)
    else match escapeOf (keyOf code) with
      | some str => (27, kbdWbuf s str)
      | none => ((mapped s.stat (keyOf code)).toNat, s)

/-- `kbd_getc`. -/
def kbdGetc (s : Kbd) : ℤ × Kbd :=
  if s.r < s.w then ((s.buf (s.r.toNat % bufOutSz)).toInt, { s with r := s.r + 1 })
  else match s.port with
    | none => (-1, s)
    | some code => scan { s with port := none } code

/-- What there is to read. -/
def Kbd.pending (s : Kbd) : ℕ := (if s.port.isSome then 256 else 0) + (s.w.toNat - s.r.toNat)

theorem wbuf_port (s : Kbd) (cs : List Int8) : (kbdWbuf s cs).port = s.port := by
  induction cs generalizing s with
  | nil => rfl
  | cons c cs ih =>
    unfold kbdWbuf
    split_ifs
    · exact ih _
    · rfl

theorem scan_port (s : Kbd) (code : UInt8) : (scan s code).2.port = s.port := by
  unfold scan
  split
  · rfl
  · split_ifs
    · split
      · exact wbuf_port ..
      · rfl
    · rfl

/-- Each call that returns a character leaves less to read. -/
theorem getc_pending {s : Kbd} (h : 0 < Int8.ofInt (kbdGetc s).1) :
    (kbdGetc s).2.pending < s.pending := by
  unfold kbdGetc at h ⊢
  unfold Kbd.pending
  by_cases hrw : s.r < s.w
  · rw [if_pos hrw]
    have hr : s.r.toNat < s.w.toNat := UInt8.lt_iff_toNat_lt.mp hrw
    have hw := s.w.toNat_lt
    have hsucc : (s.r + 1).toNat = s.r.toNat + 1 := by
      rw [UInt8.toNat_add, UInt8.toNat_one]
      omega
    simp only [hsucc]
    omega
  · rw [if_neg hrw] at h ⊢
    cases hport : s.port with
    | none =>
      rw [hport] at h
      exact absurd h (show ¬0 < Int8.ofInt (-1) by decide)
    | some code =>
      have hnone := scan_port { s with port := none } code
      have hw := (scan { s with port := none } code).2.w.toNat_lt
      simp only [hnone, Option.isSome_none, Option.isSome_some, if_true]
      rw [if_neg (by decide)]
      omega

/-- `kbd_handler`: the characters that it gives to `tty_in`. -/
def kbdHandler (s : Kbd) : List Int8 × Kbd :=
  if _h : 0 < Int8.ofInt (kbdGetc s).1 then
    let rest := kbdHandler (kbdGetc s).2
    (Int8.ofInt (kbdGetc s).1 :: rest.1, rest.2)
  else ([], (kbdGetc s).2)
termination_by s.pending
decreasing_by exact getc_pending _h

/-- The keyboard sends a code, and the handler runs. -/
def press (s : Kbd) (code : UInt8) : List Int8 × Kbd := kbdHandler { s with port := some code }

/-- What is given to `tty_in` for each of the codes. -/
def run (s : Kbd) : List UInt8 → List (List Int8)
  | [] => []
  | code :: codes => (press s code).1 :: run (press s code).2 codes

/-! ### What the codes are for -/

/-- The characters that a code queues. -/
def queued (code : UInt8) : List Int8 :=
  if isPress code then (escapeOf (keyOf code)).getD [] else []

/-- The status behind a code. -/
def statAfter (stat code : UInt8) : UInt8 :=
  ((control stat (keyOf code) (isPress code)).map Prod.fst).getD stat

/-- The characters of a code: an escape and what is queued, of a cursor key or a page key, and the
character of another key if it has one. -/
def keys (stat code : UInt8) : List Int8 :=
  if (control stat (keyOf code) (isPress code)).isSome ∨ ¬isPress code then []
  else match escapeOf (keyOf code) with
    | some str => 27 :: str
    | none => [Int8.ofInt (mapped stat (keyOf code)).toNat].filter (0 < ·)

/-- The characters of each of the codes. -/
def typed (stat : UInt8) : List UInt8 → List (List Int8)
  | [] => []
  | code :: codes => keys stat code :: typed (statAfter stat code) codes

/-! ### The queue -/

section

variable {s : Kbd} {k : ℕ} {str : List Int8} {code : UInt8}

/-- The queue takes what is written to it, and the position goes on modulo 256. -/
theorem wbuf_eq (h : s.w.toNat + str.length ≤ s.r.toNat + bufOutSz) :
    ∃ buf, kbdWbuf s str = { s with w := s.w + .ofNat str.length, buf := buf } := by
  induction str generalizing s with
  | nil => exact ⟨s.buf, by simp [kbdWbuf]⟩
  | cons c cs ih =>
    rw [List.length_cons] at h
    have hroom : (s.w.toNat : ℤ) - s.r.toNat < bufOutSz := by omega
    have hsucc : (s.w + 1).toNat ≤ s.w.toNat + 1 := by
      rw [UInt8.toNat_add]
      exact Nat.mod_le _ _
    unfold kbdWbuf
    rw [if_pos hroom]
    obtain ⟨buf, hbuf⟩ :=
      @ih { s with buf := update s.buf (s.w.toNat % bufOutSz) c, w := s.w + 1 } (by
      dsimp only
      omega)
    refine ⟨buf, ?_⟩
    rw [hbuf, List.length_cons, Nat.add_comm, UInt8.ofNat_add, ← UInt8.add_assoc]
    rfl

/-- Where the position does not start again at 0, what is written comes behind what is queued. -/
theorem wbuf_segment (hk : s.r.toNat + k = s.w.toNat) (hroom : k + str.length ≤ bufOutSz)
    (hlt : s.w.toNat + str.length < 256) :
    segment (kbdWbuf s str).buf bufOutSz s.r.toNat (k + str.length) =
      segment s.buf bufOutSz s.r.toNat k ++ str := by
  induction str generalizing s k with
  | nil => rw [List.append_nil]; rfl
  | cons c cs ih =>
    rw [List.length_cons] at hroom hlt
    have hguard : (s.w.toNat : ℤ) - s.r.toNat < bufOutSz := by omega
    have hsucc : (s.w + 1).toNat = s.w.toNat + 1 := by
      rw [UInt8.toNat_add, UInt8.toNat_one]
      omega
    unfold kbdWbuf
    rw [if_pos hguard, List.length_cons, Nat.add_comm cs.length, ← Nat.add_assoc]
    have hih := @ih { s with buf := update s.buf (s.w.toNat % bufOutSz) c, w := s.w + 1 } (k + 1)
    dsimp only at hih
    rw [hih (by omega) (by omega) (by omega), ← hk, segment_push _ _ (by omega), List.append_assoc]
    rfl

/-- A handler with nothing to read. -/
theorem handler_idle (hrw : s.w ≤ s.r) (hport : s.port = none) : kbdHandler s = ([], s) := by
  have hgetc : kbdGetc s = (-1, s) := by
    unfold kbdGetc
    rw [if_neg (UInt8.not_lt.mpr hrw), hport]
  unfold kbdHandler
  rw [hgetc]
  rfl

/-- The handler gives all that is queued. -/
theorem handler_drain (hk : s.r.toNat + k = s.w.toNat) (hport : s.port = none)
    (hpos : ∀ c ∈ segment s.buf bufOutSz s.r.toNat k, 0 < c) :
    kbdHandler s = (segment s.buf bufOutSz s.r.toNat k, { s with r := s.w }) := by
  induction k generalizing s with
  | zero =>
    obtain ⟨stat, r, w, buf, port⟩ := s
    obtain rfl : r = w := UInt8.toNat_inj.mp hk
    exact handler_idle (UInt8.le_refl _) hport
  | succ k ih =>
    rw [segment_pop] at hpos ⊢
    have hw := s.w.toNat_lt
    have hsucc : (s.r + 1).toNat = s.r.toNat + 1 := by
      rw [UInt8.toNat_add, UInt8.toNat_one]
      omega
    have hgetc : kbdGetc s = ((s.buf (s.r.toNat % bufOutSz)).toInt, { s with r := s.r + 1 }) := by
      unfold kbdGetc
      rw [if_pos (UInt8.lt_iff_toNat_lt.mpr (by omega))]
    have hih := @ih { s with r := s.r + 1 }
    dsimp only at hih
    rw [hsucc] at hih
    unfold kbdHandler
    rw [hgetc, Int8.ofInt_toInt, dif_pos (hpos _ List.mem_cons_self),
      hih (by omega) hport (fun c hc => hpos c (List.mem_cons_of_mem _ hc))]

/-! ### A code -/

/-- A cursor key or a page key is no control key. -/
theorem control_of_escape {stat c : UInt8} {isP : Bool} (h : escapeOf c = some str) :
    control stat c isP = none := by
  have hkey : c ∈ [kup, kdwn, krgt, klft, kpgup, kpgdwn] := by
    unfold escapeOf at h
    split_ifs at h <;> simp_all
  simp only [List.mem_cons, List.not_mem_nil, or_false] at hkey
  rcases hkey with rfl | rfl | rfl | rfl | rfl | rfl <;> rfl

/-- A control key has no character. -/
theorem control_value {stat c : UInt8} {isP : Bool} {p : UInt8 × ℤ}
    (h : control stat c isP = some p) :
    p.2 = 0 ∨ p.2 = -1 := by
  unfold control at h
  split_ifs at h <;> simp only [Option.some.injEq] at h <;> subst h <;> simp

/-- The characters that a key queues are positive, and there are two or three. -/
theorem escapeOf_spec {c : UInt8} (h : escapeOf c = some str) :
    (∀ d ∈ str, 0 < d) ∧ str ≠ [] ∧ str.length ≤ 3 := by
  have hstr : str ∈ [[91, 65], [91, 66], [91, 67], [91, 68], [91, 53, 126], [91, 54, 126]] := by
    unfold escapeOf at h
    split_ifs at h <;> simp_all
  simp only [List.mem_cons, List.not_mem_nil, or_false] at hstr
  rcases hstr with rfl | rfl | rfl | rfl | rfl | rfl <;> exact ⟨by simp, by simp, by decide⟩

/-- A code either queues the characters of its key and is an escape itself, or has at most one
character and queues none. -/
theorem scan_cases (s : Kbd) (code : UInt8) :
    (∃ str, escapeOf (keyOf code) = some str ∧ queued code = str ∧ keys s.stat code = 27 :: str ∧
      statAfter s.stat code = s.stat ∧ scan s code = (27, kbdWbuf s str)) ∨
    (∃ v, queued code = [] ∧ keys s.stat code = [Int8.ofInt v].filter (0 < ·) ∧
      scan s code = (v, { s with stat := statAfter s.stat code })) := by
  unfold queued keys statAfter scan
  cases hcontrol : control s.stat (keyOf code) (isPress code) with
  | some p =>
    refine .inr ⟨p.2, ?_, (if_pos (.inl rfl)).trans ?_, rfl⟩
    · cases hstr : escapeOf (keyOf code) with
      | some str =>
          exact absurd (hcontrol.symm.trans (control_of_escape hstr)) (Option.some_ne_none p)
      | none => simp
    · rcases control_value hcontrol with hv | hv <;> rw [hv] <;> decide
  | none =>
    by_cases hp : isPress code
    · cases hstr : escapeOf (keyOf code) with
      | some str => exact .inl ⟨str, rfl, by simp [hp], by simp [hp], rfl, by simp [hp]⟩
      | none =>
          exact .inr ⟨(mapped s.stat (keyOf code)).toNat, by simp [hp], by simp [hp], by simp [hp]⟩
    · exact .inr ⟨0, by simp [hp], by simp [hp], by simp [hp]⟩

/-! ### Runs -/

/-- A handler with a code to read and nothing queued. -/
theorem press_eq (hrw : s.r = s.w) {v : ℤ} {t : Kbd}
    (hscan : scan { s with port := none } code = (v, t)) :
    press s code = if 0 < Int8.ofInt v then (Int8.ofInt v :: (kbdHandler t).1, (kbdHandler t).2)
      else ([], t) := by
  have hgetc : kbdGetc { s with port := some code } = (v, t) := by
    unfold kbdGetc
    rw [if_neg (by rw [hrw]; exact UInt8.lt_irrefl _)]
    exact hscan
  unfold press
  conv_lhs => unfold kbdHandler
  rw [hgetc]
  rfl

/-- The queue is empty and the controller has no code. -/
structure Idle (s : Kbd) : Prop where
  r_eq : s.r = s.w
  port_eq : s.port = none

/-- What is queued while the position of the writer does not start again at 0 is all given, and the
queue is empty again. -/
theorem press_right (hs : Idle s) (hfit : s.w.toNat + (queued code).length < 256) :
    (press s code).1 = keys s.stat code ∧ Idle (press s code).2 ∧
      (press s code).2.stat = statAfter s.stat code ∧
      (press s code).2.w.toNat = s.w.toNat + (queued code).length := by
  obtain ⟨str, hesc, hqueued, hkeys, hstat, hscan⟩ | ⟨v, hqueued, hkeys, hscan⟩ :=
    scan_cases { s with port := none } code
  · obtain ⟨hpos, hne, hlen⟩ := escapeOf_spec hesc
    rw [hqueued] at hfit ⊢
    have hle : s.w.toNat + str.length ≤ s.r.toNat + bufOutSz := by
      rw [hs.r_eq]
      unfold bufOutSz
      omega
    have hseg := @wbuf_segment { s with port := none } 0 str (by rw [hs.r_eq]; rfl)
      (by unfold bufOutSz; omega) hfit
    obtain ⟨buf, hbuf⟩ := @wbuf_eq { s with port := none } str hle
    have hw : (s.w + .ofNat str.length).toNat = s.w.toNat + str.length := by
      rw [UInt8.toNat_add, UInt8.toNat_ofNat']
      omega
    rw [hbuf, segment_zero, List.nil_append, Nat.zero_add] at hseg
    rw [hbuf] at hscan
    rw [press_eq hs.r_eq hscan, if_pos (by decide), handler_drain (by rw [hs.r_eq, ← hw]) rfl
      (fun c hc => hpos c (hseg ▸ hc))]
    exact ⟨by rw [hseg]; exact hkeys.symm, ⟨rfl, rfl⟩, hstat.symm, hw⟩
  · rw [press_eq hs.r_eq hscan, hqueued]
    split_ifs with hv
    · rw [handler_idle (hs.r_eq ▸ UInt8.le_refl _) rfl]
      exact ⟨by simp [hkeys, hv], ⟨hs.r_eq, rfl⟩, rfl, rfl⟩
    · exact ⟨by simp [hkeys, hv], ⟨hs.r_eq, rfl⟩, rfl, rfl⟩

/-- Where the position of the writer starts again at 0, the escape comes alone. -/
theorem press_wrong (hs : Idle s) (hfull : 256 ≤ s.w.toNat + (queued code).length) :
    (press s code).1 ≠ keys s.stat code := by
  obtain ⟨str, hesc, hqueued, hkeys, hstat, hscan⟩ | ⟨v, hqueued, hkeys, hscan⟩ :=
    scan_cases { s with port := none } code
  · obtain ⟨hpos, hne, hlen⟩ := escapeOf_spec hesc
    have hlt := s.w.toNat_lt
    rw [hqueued] at hfull
    have hle : s.w.toNat + str.length ≤ s.r.toNat + bufOutSz := by
      rw [hs.r_eq]
      unfold bufOutSz
      omega
    obtain ⟨buf, hbuf⟩ := @wbuf_eq { s with port := none } str hle
    have hw : (s.w + .ofNat str.length).toNat = s.w.toNat + str.length - 256 := by
      rw [UInt8.toNat_add, UInt8.toNat_ofNat']
      omega
    have hback : s.w + .ofNat str.length ≤ s.r := by
      rw [UInt8.le_iff_toNat_le, hs.r_eq, hw]
      omega
    rw [hbuf] at hscan
    rw [press_eq hs.r_eq hscan, if_pos (by decide), handler_idle hback rfl]
    intro heq
    have hcons : [27] = 27 :: str := heq.trans hkeys
    exact hne (List.cons.inj hcons).2.symm
  · have hlt := s.w.toNat_lt
    rw [hqueued, List.length_nil] at hfull
    omega

/-- Presses give the characters that they are for exactly when fewer than 256 are left to queue. -/
theorem run_eq_iff {codes : List UInt8} (hs : Idle s) :
    run s codes = typed s.stat codes ↔ s.w.toNat + (codes.flatMap queued).length < 256 := by
  induction codes generalizing s with
  | nil => exact ⟨fun _ => s.w.toNat_lt, fun _ => rfl⟩
  | cons code codes ih =>
    unfold run typed
    rw [List.flatMap_cons, List.length_append, ← Nat.add_assoc]
    by_cases hfit : s.w.toNat + (queued code).length < 256
    · obtain ⟨hkeys, hidle, hstat, hw⟩ := press_right hs hfit
      rw [hkeys, List.cons.injEq, ← hstat, ← hw, ih hidle]
      exact and_iff_right rfl
    · refine iff_of_false (fun h => press_wrong hs (Nat.not_lt.mp hfit) (List.cons.inj h).1) ?_
      omega

end

/-! ### The whole run -/

/-- Every press gives what it is for: an escape and what was queued for a cursor key or a page key,
before anything of a later key. -/
def Right (codes : List UInt8) : Prop := run .boot codes = typed 0 codes

/-- **The presses from the boot on give what they are for exactly when at most 255 characters are
queued in all.** -/
theorem presses_right_iff (codes : List UInt8) :
    Right codes ↔ (codes.flatMap queued).length ≤ 255 := by
  have h : Right codes ↔ 0 + (codes.flatMap queued).length < 256 := run_eq_iff ⟨rfl, rfl⟩
  rw [h, Nat.zero_add, Nat.lt_succ_iff]

/-- The 128th press of a cursor key gives only the escape. -/
theorem not_presses_right : ¬∀ codes, Right codes := by
  intro h
  have hfits := (run_eq_iff ⟨rfl, rfl⟩).mp (h (List.replicate 128 kup))
  revert hfits
  decide +kernel

end Cosiris.Keyboard
