import Cosiris.Net.Frame

/-!
# Frames are parsed within their buffer

`net_process` on a frame of a size that `ne2000_recv` lets through. ARP frames and the IP
header always stay within the frame. What follows the IP header does so exactly when
the lengths that the frame itself states lie within it (`frame_in_bounds`):
`icmpv4_process` and `udp_process` do not compare them with `buf->size`.
-/

namespace Cosiris.Net

open Prog

/-- The buffer in memory `d`, with accesses up to `r`. -/
def NetBuf.at (b : NetBuf) (d : ℕ → UInt8) (r : ℕ) : NetBuf := { b with data := d, reach := r }

/-- The state with the buffer in memory `d`, with accesses up to `r`. -/
def Rx.at (s : Rx) (d : ℕ → UInt8) (r : ℕ) : Rx := { s with buf := s.buf.at d r }

/-- The memory with the number of `n` bytes at index `i` the other way round. -/
def swapAt (n i : ℕ) (d : ℕ → UInt8) : ℕ → UInt8 := putLe d i n (ntoh n (getLe d i n))

section

variable {s : Rx} {d d' : ℕ → UInt8} {r n i v : ℕ} {E : Empty → Rx → Prop}

@[simp] theorem Rx.at_size : (s.at d r).buf.size = s.buf.size := rfl

@[simp] theorem Rx.at_net : (s.at d r).net = s.net := rfl

@[simp] theorem wp_rd {Q : ℕ → Rx → Prop} :
    wp (rd n i) Q E (s.at d r) = Q (getLe d i n) (s.at d (max r (i + n))) := (rfl)

@[simp] theorem wp_wr {Q : Unit → Rx → Prop} :
    wp (wr n i v) Q E (s.at d r) = Q () (s.at (putLe d i n v) (max r (i + n))) := (rfl)

@[simp] theorem wp_swap {Q : Unit → Rx → Prop} :
    wp (swap n i) Q E (s.at d r) = Q () (s.at (swapAt n i d) (max r (i + n))) := by
  simp [swap, swapAt]

@[simp] theorem wp_netif {Q : Netif → Rx → Prop} :
    wp netif Q E (s.at d r) = Q (s.net.netifs s.buf.nic) (s.at d r) := rfl

end

/-! ### Memory -/

theorem ntoh_lt (n v : ℕ) : ntoh n v < 256 ^ n := by
  have := leVal_lt (leBytes n v).reverse
  rwa [List.length_reverse, length_leBytes] at this

section

variable {d d' : ℕ → UInt8} {i j n k v : ℕ}

theorem putLe_of_disjoint {q : ℕ} (h : q < i ∨ i + n ≤ q) : putLe d i n v q = d q := by
  unfold putLe
  rcases h with h | h
  · exact putBytes_of_lt h
  · exact putBytes_of_ge (by rwa [length_leBytes])

theorem swapAt_of_disjoint {q : ℕ} (h : q < i ∨ i + n ≤ q) : swapAt n i d q = d q :=
    putLe_of_disjoint h

theorem getLe_swapAt : getLe (swapAt n i d) i n = ntoh n (getLe d i n) := by
  rw [swapAt, getLe_putLe, Nat.mod_eq_of_lt (ntoh_lt _ _)]

theorem getLe_swapAt_disjoint (h : j + k ≤ i ∨ i + n ≤ j) :
    getLe (swapAt n i d) j k = getLe d j k :=
  getLe_putLe_disjoint h

/-! ### Checksums -/

/-- The sum that `ipSum` computes. -/
def sumOf (d : ℕ → UInt8) : ℕ → ℕ → ℕ → ℕ
  | n + 2, i, sum => sumOf d n (i + 2) ((sum + getLe d i 2) % 2 ^ 32)
  | 1, i, sum => (sum + getLe d i 1) % 2 ^ 32
  | 0, _, sum => sum

/-- The checksum of the `len` bytes from index `i` (`ip_csum`). -/
def csumOf (d : ℕ → UInt8) (i len : ℕ) : ℕ := not16 (foldCarry (sumOf d len i 0) (sumOf d len i 0))

/-- Accesses to `n` bytes from index `i` on. -/
def span (r i n : ℕ) : ℕ := if n = 0 then r else max r (i + n)

theorem span_le {size : ℕ} (h : r ≤ size) : span r i n ≤ size ↔ n = 0 ∨ i + n ≤ size := by
  unfold span
  split <;> simp_all

theorem sumOf_congr (h : ∀ q, i ≤ q → q < i + n → d' q = d q) (sum : ℕ) :
    sumOf d' n i sum = sumOf d n i sum := by
  induction n using Nat.twoStepInduction generalizing i sum with
  | zero => rfl
  | one =>
    have h1 : getLe d' i 1 = getLe d i 1 := getLe_congr fun q hq => h _ (by omega) (by omega)
    rw [sumOf, sumOf, h1]
  | more n ih _ =>
    have h2 : getLe d' i 2 = getLe d i 2 := getLe_congr fun q hq => h _ (by omega) (by omega)
    rw [sumOf, sumOf, h2]
    exact ih (fun q h1 h2 => h q (by omega) (by omega)) _

theorem csumOf_congr (h : ∀ q, i ≤ q → q < i + n → d' q = d q) : csumOf d' i n = csumOf d i n := by
  rw [csumOf, csumOf, sumOf_congr h]

/-- The checksum of no bytes is not accepted. -/
theorem csumOf_zero_ne : csumOf d i 0 ≠ 0 := by
  show not16 (foldCarry 0 0) ≠ 0
  decide

variable {s : Rx} {r : ℕ} {E : Empty → Rx → Prop} {Q : ℕ → Rx → Prop}

theorem wp_ipSum (sum : ℕ) :
    wp (ipSum n i sum) Q E (s.at d r) = Q (sumOf d n i sum) (s.at d (span r i n)) := by
  induction n using Nat.twoStepInduction generalizing i sum r with
  | zero => rfl
  | one => rfl
  | more n ih _ =>
    have hspan : span (max r (i + 2)) (i + 2) n = span r i (n + 2) := by
      unfold span
      split <;> simp_all
      omega
    simp only [ipSum, wp_bind, wp_rd, ih, sumOf, hspan]

@[simp] theorem wp_ipCsum :
    wp (ipCsum i n) Q E (s.at d r) = Q (csumOf d i n) (s.at d (span r i n)) := by
  simp only [ipCsum, wp_bind, wp_ipSum, wp_pure, csumOf]

end

/-! ### Code that stays below an index -/

/-- A buffer after accesses below `k`. -/
structure Touched (k : ℕ) (b b' : NetBuf) : Prop where
  nic : b'.nic = b.nic
  size : b'.size = b.size
  captured : b'.captured = b.captured
  udata : b'.udata = b.udata
  ulen : b'.ulen = b.ulen
  reach_le : b.reach ≤ b'.reach
  reach_le_max : b'.reach ≤ max b.reach k

/-- On a buffer of `size` bytes the code accesses only bytes below `k`. -/
def Within {α : Type} (size k : ℕ) (m : RxM α) : Prop :=
  ∀ s : Rx, s.buf.size = size → wp m (fun _ s' => Touched k s.buf s'.buf) (fun _ _ => False) s

/-- The accesses lie below the size, and so does the payload of a captured buffer. -/
def NetBuf.InBounds (b : NetBuf) : Prop :=
  b.reach ≤ b.size ∧ (b.captured = true → b.udata + b.ulen ≤ b.size)

section

variable {α β : Type} {size k i n v : ℕ} {b b' b'' : NetBuf}

theorem Touched.refl : Touched k b b := ⟨rfl, rfl, rfl, rfl, rfl, le_rfl, le_max_left _ _⟩

theorem Touched.trans (h : Touched k b b') (h' : Touched k b' b'') : Touched k b b'' where
  nic := h'.nic.trans h.nic
  size := h'.size.trans h.size
  captured := h'.captured.trans h.captured
  udata := h'.udata.trans h.udata
  ulen := h'.ulen.trans h.ulen
  reach_le := h.reach_le.trans h'.reach_le
  reach_le_max := by
    have := h.reach_le_max
    have := h'.reach_le_max
    omega

theorem touched_at {d : ℕ → UInt8} {r : ℕ} (h : b.reach ≤ r) (hk : r ≤ max b.reach k) :
    Touched k b (b.at d r) :=
  ⟨rfl, rfl, rfl, rfl, rfl, h, hk⟩

/-- Accesses within the frame, or within what was accessed before, change nothing. -/
theorem Touched.inBounds_iff (h : Touched k b b') (hk : k ≤ max b.reach b.size) :
    b'.InBounds ↔ b.InBounds := by
  have := h.reach_le
  have := h.reach_le_max
  unfold NetBuf.InBounds
  rw [h.size, h.captured, h.udata, h.ulen]
  exact and_congr_left fun _ => ⟨fun _ => by omega, fun _ => by omega⟩

theorem wp_inBounds_iff {s : Rx} {m : RxM α}
    (h : wp m (fun _ s' => Touched k b s'.buf) (fun _ _ => False) s)
    (hk : k ≤ max b.reach b.size) :
    wp m (fun _ s' => s'.buf.InBounds) (fun _ _ => False) s ↔ b.InBounds := by
  obtain ⟨a, t, hm, ht⟩ := h.returns
  unfold wp
  rw [hm]
  exact ht.inBounds_iff hk

theorem within_pure (a : α) : Within size k (pure a) := fun _ _ => Touched.refl

theorem within_read : Within size k read := fun _ _ => Touched.refl

theorem Within.bind {m : RxM α} {f : α → RxM β} (hm : Within size k m)
    (hf : ∀ a, Within size k (f a)) :
    Within size k (m >>= f) := by
  intro s hs
  rw [wp_bind]
  refine (hm s hs).mono (fun a s' h => ?_) fun _ _ => id
  exact (hf a s' (h.size.trans hs)).mono (fun _ _ h' => h.trans h') fun _ _ => id

theorem Within.ite {c : Prop} [Decidable c] {m m' : RxM α} (hm : Within size k m)
    (hm' : Within size k m') :
    Within size k (if c then m else m') := by
  split
  · exact hm
  · exact hm'

theorem within_net (f : Rx → Stack) :
    Within size k (modify fun s => { s with net := f s }) := fun _ _ => Touched.refl

theorem within_rd (h : i + n ≤ k) : Within size k (rd n i) := fun _ _ =>
  touched_at (le_max_left _ _) (max_le_max_left _ h)

theorem within_wr (h : i + n ≤ k) : Within size k (wr n i v) := fun _ _ =>
  touched_at (le_max_left _ _) (max_le_max_left _ h)

theorem within_rdBytes (h : i + n ≤ k) : Within size k (rdBytes n i) := fun _ _ =>
  touched_at (le_max_left _ _) (max_le_max_left _ h)

theorem within_wrBytes {bs : List UInt8} (h : i + bs.length ≤ k) :
    Within size k (wrBytes i bs) := fun _ _ => touched_at (le_max_left _ _) (max_le_max_left _ h)

theorem within_netif : Within size k netif := fun _ _ => Touched.refl

theorem within_swap (h : i + n ≤ k) : Within size k (swap n i) := (within_rd h).bind fun _ =>
    within_wr h

theorem within_send (h : n ≤ k) : Within size k (send n) :=
  (within_rdBytes (by omega)).bind fun _ => within_net _

theorem within_ipCsum (h : i + n ≤ k) : Within size k (ipCsum i n) := by
  intro s _
  show wp (ipCsum i n) _ _ (s.at s.buf.data s.buf.reach)
  rw [wp_ipCsum]
  unfold span
  split
  · exact Touched.refl
  · exact touched_at (le_max_left _ _) (max_le_max_left _ h)

theorem within_memcpy {j : ℕ} (h : i + n ≤ k) (h' : j + n ≤ k) : Within size k (memcpy j i n) := by
  intro s _
  refine (touched_at (le_max_left _ _) (max_le_max_left _ h)).trans
    (touched_at (le_max_left _ _) (max_le_max_left _ ?_))
  rwa [length_getBytes]

end

/-! ### ARP -/

section

variable {size k : ℕ}

theorem within_eth2buf : Within size 42 eth2buf := within_swap (by decide)

theorem within_buf2arph : Within size 42 buf2arph :=
  (within_swap (by decide)).bind fun _ => (within_swap (by decide)).bind fun _ =>
    within_swap (by decide)

theorem within_buf2arpd : Within size 42 buf2arpd := (within_swap (by decide)).bind fun _ =>
    within_swap (by decide)

theorem within_arpReply (ip : ℕ) : Within size 42 (arpReply ip) := by
  refine within_netif.bind fun netif => ?_
  refine (within_memcpy (by decide) (by decide)).bind fun _ => ?_
  refine (within_wrBytes (by rw [netif.mac_size]; decide)).bind fun _ => ?_
  refine within_eth2buf.bind fun _ => (within_wr (by decide)).bind fun _ =>
    within_buf2arph.bind fun _ => ?_
  refine (within_rd (by decide)).bind fun _ => (within_wr (by decide)).bind fun _ => ?_
  refine (within_memcpy (by decide) (by decide)).bind fun _ =>
    (within_wr (by decide)).bind fun _ => ?_
  refine (within_wrBytes (by rw [netif.mac_size]; decide)).bind fun _ => ?_
  exact within_buf2arpd.bind fun _ => within_send (by decide)

/-- An ARP frame is parsed within its 42 bytes. -/
theorem within_arpProcess : Within size 42 arpProcess := by
  refine within_eth2buf.bind fun _ => within_buf2arph.bind fun _ => ?_
  refine (within_rd (by decide)).bind fun _ => (within_rd (by decide)).bind fun _ =>
    .ite (within_pure _) ?_
  refine (within_rd (by decide)).bind fun _ => (within_rd (by decide)).bind fun _ =>
    .ite (within_pure _) ?_
  refine (within_rd (by decide)).bind fun _ => .ite (within_pure _) ?_
  refine within_read.bind fun _ => .ite (within_pure _) ?_
  refine within_buf2arpd.bind fun _ => within_netif.bind fun netif =>
    .ite (within_pure _) (.ite ?_ ?_)
  · refine (within_rd (by decide)).bind fun _ => .ite (within_pure _) ?_
    exact (within_arpReply _).bind fun _ => within_pure _
  · refine (within_rd (by decide)).bind fun _ => (within_rdBytes (by decide)).bind fun _ => ?_
    refine within_read.bind fun s => ?_
    dsimp only
    exact (within_net _).bind fun _ => .ite (within_pure _) (within_pure _)

end

/-! ### The IP header -/

/-- The memory with the halves of the byte at index 14 exchanged. -/
def swapIhlAt (d : ℕ → UInt8) : ℕ → UInt8 :=
  putLe d 14 1 (getLe d 14 1 % 16 * 16 + getLe d 14 1 / 16)

/-- The memory after `swapIpv4`. -/
def swapIpv4At (d : ℕ → UInt8) : ℕ → UInt8 :=
  swapAt 4 30 (swapAt 4 26 (swapAt 2 24 (swapAt 2 18 (swapAt 2 16 d))))

/-- The memory with the flags and the fragment offset in host format. -/
def hostFragAt (d : ℕ → UInt8) : ℕ → UInt8 :=
  putLe d 20 2 (ntoh 2 (getLe d 20 2) / 2 ^ 13 % 8 + ntoh 2 (getLe d 20 2) % 2 ^ 13 * 8)

/-- The memory after `buf2eth` and `buf2ipv4`. -/
def hostIp (d : ℕ → UInt8) : ℕ → UInt8 := swapIpv4At (hostFragAt (swapIhlAt (swapAt 2 12 d)))

section

variable {s : Rx} {d : ℕ → UInt8} {r i n : ℕ} {E : Empty → Rx → Prop}

theorem getLe_one_lt : getLe d i 1 < 256 := getLe_lt d i 1

theorem wp_swapIhl {Q : Unit → Rx → Prop} :
    wp swapIhl Q E (s.at d r) = Q () (s.at (swapIhlAt d) (max r 15)) := by
  have hlt := @getLe_one_lt d 14
  have hval : (getLe d 14 1 / 16 * 16 + getLe d 14 1 / 16 % 16) % 256 ^ 1 % 16 +
    getLe d 14 1 % 16 % 16 * 16 =
      getLe d 14 1 % 16 * 16 + getLe d 14 1 / 16 := by omega
  simp only [swapIhl, getVersion, getIhl, setVersion, setIhl, wp_bind, wp_rd, wp_wr, wp_pure,
    getLe_putLe, putLe_putLe, hval, max_assoc, max_self, swapIhlAt, Nat.reduceAdd]

theorem wp_swapIpv4 {Q : Unit → Rx → Prop} :
    wp swapIpv4 Q E (s.at d r) = Q () (s.at (swapIpv4At d) (max r 34)) := by
  have hmax : max (max (max (max (max r (16 + 2)) (18 + 2)) (24 + 2)) (26 + 4)) (30 + 4) =
    max r 34 := by
    omega
  simp only [swapIpv4, wp_bind, wp_swap, hmax, swapIpv4At]

theorem wp_buf2ipv4 {Q : Unit → Rx → Prop} :
    wp buf2ipv4 Q E (s.at (swapAt 2 12 d) r) = Q () (s.at (hostIp d) (max r 34)) := by
  have hmax : max (max (max (max r 15) (20 + 2)) (20 + 2)) 34 = max r 34 := by omega
  simp only [buf2ipv4, wp_bind, wp_swapIhl, wp_rd, wp_wr, wp_swapIpv4, hmax]
  rw [← hostFragAt, ← hostIp]

theorem hostIp_of_ge {q : ℕ} (h : 34 ≤ q) : hostIp d q = d q := by
  simp (disch := omega) only [hostIp, swapIpv4At, hostFragAt, swapIhlAt, swapAt_of_disjoint,
    putLe_of_disjoint]

theorem getLe_hostIp_of_ge (h : 34 ≤ i) : getLe (hostIp d) i n = getLe d i n :=
  getLe_congr fun q _ => hostIp_of_ge (by omega)

theorem getLe_hostIp_ihl : getLe (hostIp d) 14 1 = getLe d 14 1 % 16 * 16 + getLe d 14 1 / 16 := by
  have := @getLe_one_lt d 14
  have : getLe d 14 1 % 16 * 16 + getLe d 14 1 / 16 < 256 ^ 1 := by omega
  simp (disch := decide) only [hostIp, swapIpv4At, hostFragAt, swapIhlAt, getLe_swapAt_disjoint,
    getLe_putLe_disjoint, getLe_putLe]
  omega

theorem getLe_hostIp_len : getLe (hostIp d) 16 2 = ntoh 2 (getLe d 16 2) := by
  simp (disch := decide) only [hostIp, swapIpv4At, hostFragAt, swapIhlAt, getLe_swapAt_disjoint,
    getLe_putLe_disjoint, getLe_swapAt]

theorem getLe_hostIp_ttl : getLe (hostIp d) 22 1 = getLe d 22 1 := by
  simp (disch := decide) only [hostIp, swapIpv4At, hostFragAt, swapIhlAt, getLe_swapAt_disjoint,
    getLe_putLe_disjoint]

theorem getLe_hostIp_proto : getLe (hostIp d) 23 1 = getLe d 23 1 := by
  simp (disch := decide) only [hostIp, swapIpv4At, hostFragAt, swapIhlAt, getLe_swapAt_disjoint,
    getLe_putLe_disjoint]

theorem getLe_hostIp_saddr : getLe (hostIp d) 26 4 = ntoh 4 (getLe d 26 4) := by
  simp (disch := decide) only [hostIp, swapIpv4At, hostFragAt, swapIhlAt, getLe_swapAt_disjoint,
    getLe_putLe_disjoint, getLe_swapAt]

theorem getLe_hostIp_daddr : getLe (hostIp d) 30 4 = ntoh 4 (getLe d 30 4) := by
  simp (disch := decide) only [hostIp, swapIpv4At, hostFragAt, swapIhlAt, getLe_swapAt_disjoint,
    getLe_putLe_disjoint, getLe_swapAt]

@[simp] theorem wp_ipData {Q : ℕ → Rx → Prop} :
    wp ipData Q E (s.at d r) = Q (14 + getLe d 14 1 / 16 * 4) (s.at d (max r 15)) := by
  simp [ipData, getIhl]

end

/-! ### When a frame is parsed within its buffer -/

/-- Where the IP header of a frame ends. -/
def ipEnd (d : ℕ → UInt8) : ℕ := 14 + getLe d 14 1 % 16 * 4

/-- `ip_process` goes on with the packet. -/
def IpAccepted (netif : Netif) (d : ℕ → UInt8) : Prop :=
  getLe d 14 1 / 16 = 4 ∧ 5 ≤ getLe d 14 1 % 16 ∧ getLe d 22 1 ≠ 0 ∧
    csumOf d 14 (getLe d 14 1 % 8 * 4) = 0 ∧
    (ntoh 4 (getLe d 30 4) = 0xFFFFFFFF ∨ ntoh 4 (getLe d 30 4) ∈ netif.ips)

/-- The length that `icmpv4_process` takes an ICMP message to have: the total length of the packet
without 20 bytes for the IP header. -/
def icmpLen (d : ℕ → UInt8) : ℕ := ntoh 2 (getLe d 16 2) - 20

/-- The message that the packet states lies in the frame, and so does the header of a message with
the right checksum. -/
def IcmpFits (size : ℕ) (d : ℕ → UInt8) : Prop :=
  icmpLen d = 0 ∨
    (ipEnd d + icmpLen d ≤ size ∧ (csumOf d (ipEnd d) (icmpLen d) = 0 → ipEnd d + 4 ≤ size))

section

variable {s : Rx} {d : ℕ → UInt8} {r i n : ℕ} {E : Empty → Rx → Prop}

theorem inBounds_at (hc : s.buf.captured = false) : (s.at d r).buf.InBounds ↔ r ≤ s.buf.size := by
  simp [NetBuf.InBounds, Rx.at, NetBuf.at, hc]

theorem getLe_hostIp_end : 14 + getLe (hostIp d) 14 1 / 16 * 4 = ipEnd d := by
  have := @getLe_one_lt d 14
  rw [getLe_hostIp_ihl, ipEnd]
  omega

theorem within_swapIhl {size : ℕ} : Within size 42 swapIhl := by
  intro s _
  show wp swapIhl _ _ (s.at s.buf.data s.buf.reach)
  rw [wp_swapIhl]
  exact touched_at (le_max_left _ _) (max_le_max_left _ (by decide))

theorem within_ipv42buf {size : ℕ} : Within size 42 ipv42buf := by
  refine within_swapIhl.bind fun _ => (within_rd (by decide)).bind fun _ =>
    (within_wr (by decide)).bind fun _ => ?_
  refine (within_swap (by decide)).bind fun _ => (within_swap (by decide)).bind fun _ => ?_
  exact (within_swap (by decide)).bind fun _ => (within_swap (by decide)).bind fun _ =>
    within_swap (by decide)

theorem within_echoIp {size : ℕ} : Within size 42 echoIp := by
  simp only [echoIp, iphlen, bind_assoc, pure_bind]
  refine (within_rd (by decide)).bind fun _ => (within_rd (by decide)).bind fun _ => ?_
  refine (within_wr (by decide)).bind fun _ => (within_wr (by decide)).bind fun _ => ?_
  refine (within_wr (by decide)).bind fun _ => (within_wr (by decide)).bind fun _ =>
    within_ipv42buf.bind fun _ => ?_
  exact (within_rd (by decide)).bind fun _ => (within_ipCsum (by omega)).bind fun _ =>
    within_wr (by decide)

theorem within_echoEth {size : ℕ} : Within size 42 echoEth := by
  refine within_netif.bind fun netif => (within_memcpy (by decide) (by decide)).bind fun _ => ?_
  exact (within_wrBytes (by rw [netif.mac_size]; decide)).bind fun _ => within_eth2buf

theorem within_sendAll {size : ℕ} :
    Within size (max r size) (do let s ← read; send s.buf.size) := by
  intro s hs
  rw [wp_bind, wp_read, hs]
  exact within_send (le_max_right _ _) s hs

theorem Within.mono {α : Type} {size k k' : ℕ} {m : RxM α} (h : Within size k m) (hk : k ≤ k') :
    Within size k' m :=
  fun s hs => (h s hs).mono
    (fun _ _ h => { h with reach_le_max := h.reach_le_max.trans (max_le_max_left _ hk) })
    fun _ _ => id

/-- The answer to an echo request stays within what was accessed before, and the frame. -/
theorem echoReply_spec (h14 : 34 ≤ 14 + getLe d 14 1 / 16 * 4) (h60 : 60 ≤ s.buf.size)
    (hr : 14 + getLe d 14 1 / 16 * 4 + 4 ≤ r)
    (hr' : 14 + getLe d 14 1 / 16 * 4 + (getLe d 16 2 - 20) ≤ r) :
    wp icmpv4EchoReply (fun _ s' => Touched (max r s.buf.size) (s.at d r).buf s'.buf)
      (fun _ _ => False) (s.at d r) := by
  have h42 : 42 ≤ max r s.buf.size := by omega
  generalize ho : 14 + getLe d 14 1 / 16 * 4 = o at h14 hr hr'
  have hlen :
    getLe (swapAt 2 (o + 2) (putLe (putLe (putLe d o 1 0) (o + 2) 2 0) (o + 1) 1 0)) 16 2 =
    getLe d 16 2 := by
    simp (disch := omega) only [getLe_swapAt_disjoint, getLe_putLe_disjoint]
  have hreach :
    max (span (max (max (max (max (max (max r 15) (o + 1)) (o + 2 + 2)) (o + 1 + 1)) (o + 2 + 2))
      (16 + 2)) o
      (getLe d 16 2 - 20)) (o + 2 + 2) = r := by
    unfold span
    split <;> omega
  have hrest := (within_echoIp.mono h42).bind fun _ => (within_echoEth.mono h42).bind fun _ =>
    @within_sendAll r s.buf.size
  simp only [icmpv4EchoReply, icmpv42buf, wp_bind, wp_ipData, ho, wp_wr, wp_swap, wp_rd, wp_ipCsum,
    hlen, hreach]
  generalize putLe (swapAt 2 (o + 2) (putLe (putLe (putLe d o 1 0) (o + 2) 2 0) (o + 1) 1 0))
    (o + 2) 2 _ = e
  have hend : wp _ (fun _ s' => Touched (max r s.buf.size) (s.at d r).buf s'.buf) (fun _ _ => False)
    (s.at e r) :=
    (hrest (s.at e r) rfl).mono (fun _ _ h => { h with }) fun _ _ => id
  simpa only [wp_bind] using hend

/-- **ICMP**, after the IP header. -/
theorem icmp_iff (hc : s.buf.captured = false) (hr : r ≤ s.buf.size) (h60 : 60 ≤ s.buf.size)
    (h5 : 5 ≤ getLe d 14 1 % 16) :
    wp icmpv4Process (fun _ s' => s'.buf.InBounds) (fun _ _ => False) (s.at (hostIp d) r) ↔
      IcmpFits s.buf.size d := by
  have ho : 34 ≤ ipEnd d := by
    unfold ipEnd
    omega
  have hcsum : csumOf (hostIp d) (ipEnd d) (icmpLen d) = csumOf d (ipEnd d) (icmpLen d) :=
    csumOf_congr fun q h1 _ => hostIp_of_ge (by omega)
  have hr' : max (max r 15) (16 + 2) ≤ s.buf.size := by omega
  simp only [icmpv4Process, wp_bind, wp_ipData, wp_rd, wp_ipCsum, getLe_hostIp_end,
    getLe_hostIp_len, wp_ite, wp_pure]
  rw [← icmpLen, hcsum, IcmpFits]
  generalize max (max r 15) (16 + 2) = r' at hr' ⊢
  by_cases hbad : csumOf d (ipEnd d) (icmpLen d) = 0
  · have hn : icmpLen d ≠ 0 := by
      intro h0
      rw [h0] at hbad
      exact csumOf_zero_ne hbad
    have h14 : 14 + getLe (swapAt 2 (ipEnd d + 2) (hostIp d)) 14 1 / 16 * 4 = ipEnd d := by
      rw [getLe_swapAt_disjoint (by omega), getLe_hostIp_end]
    have h16 : getLe (swapAt 2 (ipEnd d + 2) (hostIp d)) 16 2 - 20 = icmpLen d := by
      rw [getLe_swapAt_disjoint (by omega), getLe_hostIp_len, icmpLen]
    have hreach : max (max (span r' (ipEnd d) (icmpLen d)) (ipEnd d + 2 + 2)) (ipEnd d + 1) =
        max r' (max (ipEnd d + icmpLen d) (ipEnd d + 4)) := by
      rw [span, if_neg hn]
      omega
    rw [if_neg (not_not.mpr hbad)]
    simp only [hn, hbad, false_or, true_imp_iff, buf2icmpv4, wp_swap, wp_rd, hreach]
    have hecho :=
      @echoReply_spec s (swapAt 2 (ipEnd d + 2) (hostIp d))
        (max r' (max (ipEnd d + icmpLen d) (ipEnd d + 4)))
      (by omega) h60 (by omega) (by omega)
    rw [wp_inBounds_iff hecho le_rfl, ite_self, inBounds_at hc]
    omega
  · rw [if_pos hbad, inBounds_at hc, span_le hr']
    simp only [hbad, false_imp_iff, and_true]

end

/-! ### UDP -/

/-- The sum that `udpSum` computes. -/
def udpSumOf (d : ℕ → UInt8) : ℕ → ℕ → ℕ → ℕ → ℕ
  | 0, _, _, sum => sum
  | n + 1, k, i, sum =>
    udpSumOf d n (k - 1) (i + 2)
      ((sum + if 0 < k then ntoh 2 (getLe d i 2) else getLe d i 2) % 2 ^ 32)

/-- What `udp_csum` gives for the header at index `o`, in host format. -/
def udpCsumOf (d : ℕ → UInt8) (o : ℕ) : ℕ :=
  let len := getLe d (o + 4) 2
  let sum := udpSumOf d (len / 2) 4 o
    (halves (getLe d 26 4) + halves (getLe d 30 4) + ntoh 2 (getLe d 23 1) + ntoh 2 len)
  let sum := (sum + if len % 2 = 1 then getLe d (o + len / 2 * 2) 1 else 0) % 2 ^ 32
  not16 (sum % 2 ^ 16 + sum / 2 ^ 16)

/-- The memory after `buf2udp`. -/
def hostUdp (o : ℕ) (d : ℕ → UInt8) : ℕ → UInt8 :=
  swapAt 2 (o + 6) (swapAt 2 (o + 4) (swapAt 2 (o + 2) (swapAt 2 o d)))

/-- The length that the UDP header of a frame states. -/
def udpLen (d : ℕ → UInt8) : ℕ := ntoh 2 (getLe d (ipEnd d + 4) 2)

/-- The frame has a UDP checksum. -/
def HasUdpCsum (d : ℕ → UInt8) : Prop := ntoh 2 (getLe d (ipEnd d + 6) 2) ≠ 0

/-- The datagram with its header at index `o`, in host format, is queued on a socket. -/
def Taken (net : Stack) (d : ℕ → UInt8) (o : ℕ) : Prop :=
  ∃ i, net.socks.findIdx?
    (Sock.accepts (getLe d 30 4) (getLe d (o + 2) 2) (getLe d 26 4) (getLe d o 2)) = some i ∧
    net.numItems i < sockMaxBufs

/-- `udp_process` queues the datagram: it has no checksum or the right one, and there is room on its
socket. -/
def UdpTaken (net : Stack) (d : ℕ → UInt8) : Prop :=
  (HasUdpCsum d → udpCsumOf (hostUdp (ipEnd d) (hostIp d)) (ipEnd d) = 0) ∧
    Taken net (hostUdp (ipEnd d) (hostIp d)) (ipEnd d)

/-- The header lies in the frame, and so does the datagram that it states if there is a
checksum; and a datagram that is queued also has room for its header. -/
def UdpFits (net : Stack) (size : ℕ) (d : ℕ → UInt8) : Prop :=
  ipEnd d + 8 ≤ size ∧ (HasUdpCsum d → ipEnd d + udpLen d ≤ size) ∧
    (UdpTaken net d → 8 ≤ udpLen d ∧ ipEnd d + udpLen d ≤ size)

section

variable {s : Rx} {d : ℕ → UInt8} {o r i n k : ℕ} {E : Empty → Rx → Prop}

theorem wp_udpSum {Q : ℕ → Rx → Prop} (sum : ℕ) :
    wp (udpSum n k i sum) Q E (s.at d r) =
      Q (udpSumOf d n k i sum) (s.at d (span r i (n * 2))) := by
  induction n generalizing k i sum r with
  | zero => rfl
  | succ n ih =>
    have hspan : span (max r (i + 2)) (i + 2) (n * 2) = span r i ((n + 1) * 2) := by
      unfold span
      split <;> simp_all
      omega
    simp only [udpSum, wp_bind, wp_rd, ih, udpSumOf, hspan]

theorem wp_udpCsum {Q : ℕ → Rx → Prop} (h34 : 34 ≤ r) (ho : o + 6 ≤ r) :
    wp (udpCsum o) Q E (s.at d r) = Q (udpCsumOf d o) (s.at d (span r o (getLe d (o + 4) 2))) := by
  have hr : max (max (max (max r (26 + 4)) (30 + 4)) (23 + 1)) (o + 4 + 2) = r := by omega
  simp only [udpCsum, wp_bind, wp_rd, wp_udpSum, hr, wp_ite, wp_pure]
  by_cases hodd : getLe d (o + 4) 2 % 2 = 1
  · have hspan : max (span r o (getLe d (o + 4) 2 / 2 * 2)) (o + getLe d (o + 4) 2 / 2 * 2 + 1) =
        span r o (getLe d (o + 4) 2) := by
      unfold span
      split <;> split <;> omega
    simp only [if_pos hodd, hspan, udpCsumOf]
  · have heven : getLe d (o + 4) 2 / 2 * 2 = getLe d (o + 4) 2 := by omega
    simp only [if_neg hodd, heven, udpCsumOf]

theorem deliver_iff (hc : s.buf.captured = false) (h34 : 34 ≤ r) (ho : o + 8 ≤ r)
    (hs : s.buf.size < 2 ^ 16) :
    wp (udpDeliver o) (fun _ s' => s'.buf.InBounds) (fun _ _ => False) (s.at d r) ↔
      r ≤ s.buf.size ∧
        (Taken s.net d o → 8 ≤ getLe d (o + 4) 2 ∧ o + getLe d (o + 4) 2 ≤ s.buf.size) := by
  have hr : max (max (max (max r (o + 2 + 2)) (30 + 4)) (o + 2)) (26 + 4) = r := by omega
  have hr' : max r (o + 4 + 2) = r := by omega
  have hlen : getLe d (o + 4) 2 < 256 ^ 2 := getLe_lt _ _ _
  simp only [udpDeliver, wp_bind, wp_rd, wp_read, hr, Taken, Rx.at_net]
  cases hfind :
    s.net.socks.findIdx?
      (Sock.accepts (getLe d 30 4) (getLe d (o + 2) 2) (getLe d 26 4) (getLe d o 2)) with
  | none =>
    simp [inBounds_at hc]
  | some i =>
    simp only [wp_ite, wp_bind, wp_rd, wp_modify, wp_pure, hr', Option.some.injEq, exists_eq_left']
    split
    · rename_i hroom
      show r ≤ s.buf.size ∧
        (true = true → o + 8 + (getLe d (o + 4) 2 + (2 ^ 32 - 8)) % 2 ^ 32 ≤ s.buf.size) ↔ _
      simp only [hroom, true_imp_iff]
      omega
    · rename_i hroom
      simp [hroom, inBounds_at hc]

theorem getLe_hostUdp_len : getLe (hostUdp o d) (o + 4) 2 = ntoh 2 (getLe d (o + 4) 2) := by
  simp (disch := omega) only [hostUdp, getLe_swapAt_disjoint, getLe_swapAt]

theorem getLe_hostUdp_csum : getLe (hostUdp o d) (o + 6) 2 = ntoh 2 (getLe d (o + 6) 2) := by
  simp (disch := omega) only [hostUdp, getLe_swapAt_disjoint, getLe_swapAt]

theorem wp_buf2udp {Q : Unit → Rx → Prop} :
    wp (buf2udp o) Q E (s.at d r) = Q () (s.at (hostUdp o d) (max r (o + 8))) := by
  have hmax : max (max (max (max r (o + 2)) (o + 2 + 2)) (o + 4 + 2)) (o + 6 + 2) =
    max r (o + 8) := by
    omega
  simp only [buf2udp, wp_bind, wp_swap, hmax, hostUdp]

/-- **UDP**, after the IP header. -/
theorem udp_iff (hc : s.buf.captured = false) (h34 : 34 ≤ r) (hr : r ≤ s.buf.size)
    (hs : s.buf.size < 2 ^ 16)
    (h5 : 5 ≤ getLe d 14 1 % 16) :
    wp udpProcess (fun _ s' => s'.buf.InBounds) (fun _ _ => False) (s.at (hostIp d) r) ↔
      UdpFits s.net s.buf.size d := by
  have ho : 34 ≤ ipEnd d := by
    unfold ipEnd
    omega
  have hreach : max (max (max r 15) (ipEnd d + 8)) (ipEnd d + 6 + 2) = max r (ipEnd d + 8) := by
    omega
  have hlen : getLe (hostUdp (ipEnd d) (hostIp d)) (ipEnd d + 4) 2 = udpLen d := by
    rw [getLe_hostUdp_len, getLe_hostIp_of_ge (by omega), udpLen]
  have hcsum : getLe (hostUdp (ipEnd d) (hostIp d)) (ipEnd d + 6) 2 =
    ntoh 2 (getLe d (ipEnd d + 6) 2) := by
    rw [getLe_hostUdp_csum, getLe_hostIp_of_ge (by omega)]
  simp only [udpProcess, wp_bind, wp_ipData, getLe_hostIp_end, wp_buf2udp, wp_rd, hreach, hcsum]
  unfold UdpFits UdpTaken
  by_cases hsum : HasUdpCsum d
  · have hsum' : ntoh 2 (getLe d (ipEnd d + 6) 2) ≠ 0 := hsum
    have hspan : ipEnd d + 8 ≤ span (max r (ipEnd d + 8)) (ipEnd d) (udpLen d) := by
      unfold span
      split <;> omega
    have hspan_le : span (max r (ipEnd d + 8)) (ipEnd d) (udpLen d) ≤ s.buf.size ↔
        ipEnd d + 8 ≤ s.buf.size ∧ ipEnd d + udpLen d ≤ s.buf.size := by
      unfold span
      split <;> omega
    rw [if_pos hsum', wp_bind, wp_udpCsum (by omega) (by omega), hlen]
    by_cases hbad : udpCsumOf (hostUdp (ipEnd d) (hostIp d)) (ipEnd d) = 0
    · rw [wp_ite, if_neg (not_not.mpr hbad), deliver_iff hc (by omega) hspan hs, hlen, hspan_le]
      simp only [hsum, hbad, true_imp_iff, true_and, and_assoc]
    · rw [wp_ite, if_pos hbad, wp_pure, inBounds_at hc, hspan_le]
      simp only [hsum, hbad, true_imp_iff, false_and, false_imp_iff, and_true]
  · have hsum' : ¬ntoh 2 (getLe d (ipEnd d + 6) 2) ≠ 0 := hsum
    rw [if_neg hsum', wp_bind, wp_pure, wp_ite, if_neg (not_not.mpr rfl),
      deliver_iff hc (by omega) (by omega) hs, hlen]
    simp only [hsum, false_imp_iff, true_and, max_le_iff, hr]

/-! ### IP and the frame -/

theorem wp_discard {α : Type} {m : RxM α} {Q : Unit → Rx → Prop} :
    wp (discard m) Q E s = wp m (fun _ s' => Q () s') E s := wp_map m (fun _ => ()) Q

/-- How far the accesses to the IP header go. -/
def ipReach (d : ℕ → UInt8) (r : ℕ) : ℕ :=
  max (span (max (max r 14) 15) 14 (getLe d 14 1 % 8 * 4)) 34

theorem ipReach_ge : 34 ≤ ipReach d r := le_max_right _ _

theorem ipReach_le {size : ℕ} (hr : r ≤ size) (h : 42 ≤ size) : ipReach d r ≤ size := by
  unfold ipReach span
  split <;> omega

/-- The tests of `ip_process`, on a frame with no byte converted yet: the header is in host format
after them. -/
theorem wp_ipTests {Q : ℤ → Rx → Prop} :
    (IpAccepted (s.net.netifs s.buf.nic) d → (wp ipProcess Q E (s.at d r) ↔
      wp (if getLe d 23 1 = 1 then discard icmpv4Process
        else if getLe d 23 1 = 17 then discard udpProcess else pure ())
        (fun _ => Q 0) E (s.at (hostIp d) (ipReach d r)))) ∧
      (¬IpAccepted (s.net.netifs s.buf.nic) d →
        (wp ipProcess Q E (s.at d r) ↔ Q (-1) (s.at (hostIp d) (ipReach d r)))) := by
  have hcsum : csumOf (swapAt 2 12 d) 14 (getLe d 14 1 % 8 * 4) =
    csumOf d 14 (getLe d 14 1 % 8 * 4) :=
    csumOf_congr fun q h1 _ => swapAt_of_disjoint (by omega)
  simp only [ipProcess, buf2eth, iphlen, getVersion, getIhl, wp_bind, wp_swap, wp_rd, wp_pure,
    wp_ipCsum, wp_buf2ipv4, wp_netif, wp_ite, wp_discard, getLe_hostIp_ihl, getLe_hostIp_ttl,
      getLe_hostIp_daddr, getLe_hostIp_proto]
  rw [getLe_swapAt_disjoint (by decide), hcsum]
  have hlt := @getLe_one_lt d 14
  have hr' : max (span (max (max r (12 + 2)) (14 + 1)) 14 (getLe d 14 1 % 8 * 4)) 34 =
    ipReach d r :=
    rfl
  have h34 := @ipReach_ge d r
  have hversion : (getLe d 14 1 % 16 * 16 + getLe d 14 1 / 16) % 16 = getLe d 14 1 / 16 := by omega
  have hihl : (getLe d 14 1 % 16 * 16 + getLe d 14 1 / 16) / 16 = getLe d 14 1 % 16 := by omega
  have h15 : max (ipReach d r) (14 + 1) = ipReach d r := by omega
  have h23 : max (ipReach d r) (22 + 1) = ipReach d r := by omega
  have h24 : max (ipReach d r) (23 + 1) = ipReach d r := by omega
  have h34' : max (ipReach d r) (30 + 4) = ipReach d r := by omega
  simp only [hr', h15, h23, h24, h34', hversion, hihl, IpAccepted]
  by_cases h4 : getLe d 14 1 / 16 = 4
  case neg => simp [h4]
  by_cases h5 : 5 ≤ getLe d 14 1 % 16
  case neg => simp [h5]
  by_cases httl : getLe d 22 1 = 0
  case pos => simp [httl]
  by_cases hsum : csumOf d 14 (getLe d 14 1 % 8 * 4) = 0
  case neg => simp [hsum]
  by_cases hip : ntoh 4 (getLe d 30 4) = 0xFFFFFFFF ∨
    ntoh 4 (getLe d 30 4) ∈ (s.net.netifs s.buf.nic).ips
  case neg => simp [not_or.mp hip]
  have hip' : ¬(ntoh 4 (getLe d 30 4) ≠ 0xFFFFFFFF ∧
    ntoh 4 (getLe d 30 4) ∉ (s.net.netifs s.buf.nic).ips) := by
    simpa [not_and, or_iff_not_imp_left] using hip
  rw [if_neg (not_not.mpr h4), if_neg (by omega), if_neg httl,
    if_neg (not_not.mpr hsum), if_neg hip']
  simp only [h4, h5, httl, hsum, hip, ne_eq, not_false_eq_true, and_self, true_imp_iff,
    not_true_eq_false, false_imp_iff]

theorem wp_ipProcess_accepted {Q : ℤ → Rx → Prop} (h : IpAccepted (s.net.netifs s.buf.nic) d) :
    wp ipProcess Q E (s.at d r) ↔
      wp (if getLe d 23 1 = 1 then discard icmpv4Process
        else if getLe d 23 1 = 17 then discard udpProcess else pure ())
        (fun _ => Q 0) E (s.at (hostIp d) (ipReach d r)) :=
  wp_ipTests.1 h

theorem wp_ipProcess_refused {Q : ℤ → Rx → Prop} (h : ¬IpAccepted (s.net.netifs s.buf.nic) d) :
    wp ipProcess Q E (s.at d r) ↔ Q (-1) (s.at (hostIp d) (ipReach d r)) :=
  wp_ipTests.2 h

/-- **IP**, on a frame with no byte converted yet. -/
theorem ip_iff (hc : s.buf.captured = false) (hr : r ≤ s.buf.size) (h60 : 60 ≤ s.buf.size)
    (hs : s.buf.size < 2 ^ 16) :
    wp ipProcess (fun _ s' => s'.buf.InBounds) (fun _ _ => False) (s.at d r) ↔
      (IpAccepted (s.net.netifs s.buf.nic) d → (getLe d 23 1 = 1 → IcmpFits s.buf.size d) ∧
        (getLe d 23 1 = 17 → UdpFits s.net s.buf.size d)) := by
  have hle : ipReach d r ≤ s.buf.size := ipReach_le hr (by omega)
  by_cases hacc : IpAccepted (s.net.netifs s.buf.nic) d
  · have h5 : 5 ≤ getLe d 14 1 % 16 := hacc.2.1
    rw [wp_ipProcess_accepted hacc]
    simp only [wp_ite, wp_discard, wp_pure, hacc, true_imp_iff]
    rw [icmp_iff hc hle h60 h5, udp_iff hc ipReach_ge hle hs h5, inBounds_at hc]
    by_cases hp : getLe d 23 1 = 1
    · simp [hp]
    · by_cases hp' : getLe d 23 1 = 17
      · simp [hp']
      · simp [hp, hp', hle]
  · rw [wp_ipProcess_refused hacc, inBounds_at hc]
    exact iff_of_true hle fun h => absurd h hacc

end

/-- A frame that `ne2000_recv` lets through, in memory. -/
structure Frame where
  nic : ℕ
  size : ℕ
  data : ℕ → UInt8
  size_ge : 60 ≤ size
  size_le : size ≤ 1518

/-- The buffer that `ne2000_recv_frame` makes of a frame. -/
def Frame.buf (f : Frame) : NetBuf := ⟨f.nic, f.size, false, 0, 0, f.data, 0⟩

/-- The accesses lie within the buffer; a captured payload lies in it, and `udp_read` copies only
bytes of it, whatever size it is asked for. -/
def NetBuf.Contained (b : NetBuf) : Prop :=
  b.reach ≤ b.size ∧
    (b.captured = true → b.udata + b.ulen ≤ b.size ∧ ∀ n, (b.copy n).2.reach ≤ b.size)

/-- The lengths that an accepted IP packet states lie within its frame. -/
def Frame.Fits (net : Stack) (f : Frame) : Prop :=
  ntoh 2 (getLe f.data 12 2) = 0x800 → IpAccepted (net.netifs f.nic) f.data →
    (getLe f.data 23 1 = 1 → IcmpFits f.size f.data) ∧
      (getLe f.data 23 1 = 17 → UdpFits net f.size f.data)

theorem NetBuf.contained_iff {b : NetBuf} : b.Contained ↔ b.InBounds := by
  refine and_congr_right fun hr => forall_congr' fun _ => and_iff_left_of_imp fun hu n => ?_
  unfold NetBuf.copy NetBuf.touch
  dsimp only
  split <;> split
  · exact hr
  · exact max_le hr hu
  · exact hr
  · exact max_le hr (by omega)

/-- **Frames are parsed within their buffer** exactly when the lengths that they state lie within
them. -/
theorem frame_in_bounds (net : Stack) (f : Frame) :
    wp netProcess (fun _ s => s.buf.Contained) (fun _ _ => False) ⟨net, f.buf⟩ ↔ f.Fits net := by
  have h60 := f.size_ge
  have hs := f.size_le
  have hstart : (⟨net, f.buf⟩ : Rx) = (⟨net, f.buf⟩ : Rx).at f.data 0 := rfl
  have hc : (⟨net, f.buf⟩ : Rx).buf.captured = false := rfl
  simp only [NetBuf.contained_iff]
  rw [hstart]
  simp only [netProcess, wp_bind, wp_rd, wp_read, wp_ite, wp_pure, wp_discard]
  have hreach : max 0 (12 + 2) ≤ f.size := by omega
  have harp :=
    wp_inBounds_iff (within_arpProcess ((⟨net, f.buf⟩ : Rx).at f.data (max 0 (12 + 2))) rfl)
    (by show 42 ≤ max _ f.size; omega)
  rw [harp, ip_iff hc hreach h60 (show f.size < _ by omega), inBounds_at hc]
  refine (iff_of_eq (if_neg (show ¬f.size < 14 by omega))).trans ?_
  show _ ↔ (ntoh 2 (getLe f.data 12 2) = 0x800 → _)
  by_cases hip : ntoh 2 (getLe f.data 12 2) = 0x800
  · rw [if_neg (by rw [hip]; decide), if_pos hip]
    exact ⟨fun h _ => h, fun h => h hip⟩
  · rw [if_neg hip, ite_self]
    exact iff_of_true hreach fun h => (hip h).elim

/-- An interface without addresses. -/
def noIps : Netif := ⟨List.replicate 6 0, List.replicate 4 0, true, rfl, rfl⟩

/-- A broadcast UDP datagram from 0.0.0.0 to port 68, without a checksum, whose header states a
length of 0. -/
def shortDatagram : Frame where
  nic := 0
  size := 60
  data i := [0xFF, 0xFF, 0xFF, 0xFF, 0xFF, 0xFF, 0, 0, 0, 0, 0, 0, 0x08, 0x00,
    0x45, 0, 0, 28, 0, 0, 0, 0, 64, 17, 0x7A, 0xD2, 0, 0, 0, 0, 0xFF, 0xFF, 0xFF, 0xFF,
    0, 67, 0, 68, 0, 0, 0, 0].getD i 0
  size_ge := by decide
  size_le := by decide

/-- A network with a socket bound to port 68. -/
def boundStack : Stack := ⟨fun _ => noIps, [⟨0, 0, 68, 0, 0, []⟩], [], 0, []⟩

/-- The datagram is queued with a length of `2^32 - 8`. -/
theorem short_datagram_escapes :
    ¬wp netProcess (fun _ s => s.buf.Contained) (fun _ _ => False) ⟨boundStack,
      shortDatagram.buf⟩ := by
  intro h
  obtain ⟨a, t, hm, -, hu⟩ := h.returns
  have hcaptured : (netProcess ⟨boundStack, shortDatagram.buf⟩).state.buf.captured = true := by
    decide +kernel
  have hlen : (netProcess ⟨boundStack, shortDatagram.buf⟩).state.buf.ulen = 2 ^ 32 - 8 := by
    decide +kernel
  have hsize : (netProcess ⟨boundStack, shortDatagram.buf⟩).state.buf.size = 60 := by decide +kernel
  rw [hm] at hcaptured hlen hsize
  change t.buf.captured = true at hcaptured
  change t.buf.ulen = _ at hlen
  change t.buf.size = _ at hsize
  have := (hu hcaptured).1
  omega

end Cosiris.Net
