import Cosiris.Lib.OnesSum
import Cosiris.Net.Bounds

/-!
# The checksum of a datagram

`udp_write` and the check of `udp_process`, against the checksum of the protocol: the complement
of the one's complement sum of the pseudo header and the datagram, where 0 is sent as all ones.
`udp_csum` adds the carry in once only. A second carry is lost then, and a sum of all ones is sent
as 0. -/

namespace Cosiris.Net

open Prog Ones

/-- The `n` bytes of a number, high byte first. -/
def be (n v : ℕ) : List UInt8 := (leBytes n v).reverse

/-- What `udp_csum` adds up, for a header at index `o` in host format: the pseudo header and the
datagram, as they are on the wire. -/
def summed (d : ℕ → UInt8) (o : ℕ) : List UInt8 :=
  be 4 (getLe d 26 4) ++
    (be 4 (getLe d 30 4) ++ ([0, d 23] ++ (be 2 (getLe d (o + 4) 2) ++ (be 2 (getLe d o 2) ++
    (be 2 (getLe d (o + 2) 2) ++ (be 2 (getLe d (o + 4) 2) ++ (be 2 (getLe d (o + 6) 2) ++
      getBytes d (o + 8) (getLe d (o + 4) 2 - 8))))))))

section

variable {d : ℕ → UInt8} {o i n v sum : ℕ}

@[simp] theorem length_be (n v : ℕ) : (be n v).length = n := by simp [be]

theorem wordsLe_be_two (v : ℕ) : wordsLe (be 2 v) = ntoh 2 v := by
  show (UInt8.ofNat (v / 256)).toNat + 256 * (UInt8.ofNat v).toNat + 0 =
    (UInt8.ofNat (v / 256)).toNat + 256 * ((UInt8.ofNat v).toNat + 256 * 0)
  omega

theorem wordsLe_be_four (v : ℕ) : wordsLe (be 4 v) = halves v := by
  have h0 := (UInt8.ofNat (v / 256 / 256 / 256)).toNat_lt
  have h1 := (UInt8.ofNat (v / 256 / 256)).toNat_lt
  have h2 := (UInt8.ofNat (v / 256)).toNat_lt
  have h3 := (UInt8.ofNat v).toNat_lt
  have hn : ntoh 4 v = (UInt8.ofNat (v / 256 / 256 / 256)).toNat +
    256 * ((UInt8.ofNat (v / 256 / 256)).toNat +
      256 * ((UInt8.ofNat (v / 256)).toNat + 256 * ((UInt8.ofNat v).toNat + 256 * 0))) := rfl
  have hw : wordsLe (be 4 v) = (UInt8.ofNat (v / 256 / 256 / 256)).toNat +
    256 * (UInt8.ofNat (v / 256 / 256)).toNat +
      ((UInt8.ofNat (v / 256)).toNat + 256 * (UInt8.ofNat v).toNat + 0) := rfl
  rw [hw, halves, hn]
  omega

theorem getLe_one (d : ℕ → UInt8) (i : ℕ) : getLe d i 1 = (d i).toNat := rfl

theorem getLe_two (d : ℕ → UInt8) (i : ℕ) :
    getLe d i 2 = (d i).toNat + 256 * (d (i + 1)).toNat := rfl

theorem wordsLe_zero_cons (b : UInt8) : wordsLe [0, b] = ntoh 2 b.toNat := by
  have hb := b.toNat_lt
  have h0 : (UInt8.ofNat (b.toNat / 256)).toNat = 0 := by
    rw [Nat.div_eq_of_lt hb]
    rfl
  rw [← wordsLe_be_two]
  show (0 : UInt8).toNat + 256 * b.toNat + 0 =
    (UInt8.ofNat (b.toNat / 256)).toNat + 256 * (UInt8.ofNat b.toNat).toNat + 0
  rw [h0, UInt8.ofNat_toNat]
  rfl

theorem getBytes_two (d : ℕ → UInt8) (i m : ℕ) :
    getBytes d i (m + 2) = d i :: d (i + 1) :: getBytes d (i + 2) m := by
  rw [Nat.add_comm m 2, getBytes_add]
  rfl

/-- The words of the payload, and an odd byte behind them. -/
theorem udpSumOf_payload (hsum : sum + wordsLe (getBytes d i (2 * n)) < 2 ^ 32) :
    udpSumOf d n 0 i sum = sum + wordsLe (getBytes d i (2 * n)) := by
  induction n generalizing i sum with
  | zero => rfl
  | succ n ih =>
    rw [show 2 * (n + 1) = 2 * n + 2 by omega, getBytes_two, wordsLe, ← getLe_two] at hsum ⊢
    rw [udpSumOf, if_neg (Nat.lt_irrefl 0), Nat.mod_eq_of_lt (by omega), ih (by omega)]
    omega

/-- The four words of the header are added as they are on the wire. -/
theorem udpSumOf_header
    (hsum : sum + (ntoh 2 (getLe d i 2) + ntoh 2 (getLe d (i + 2) 2) + ntoh 2 (getLe d (i + 4) 2) +
    ntoh 2 (getLe d (i + 6) 2)) < 2 ^ 32) :
    udpSumOf d (n + 4) 4 i sum =
      udpSumOf d n 0 (i + 8) (sum + (ntoh 2 (getLe d i 2) + ntoh 2 (getLe d (i + 2) 2) +
      ntoh 2 (getLe d (i + 4) 2) + ntoh 2 (getLe d (i + 6) 2))) := by
  show udpSumOf d n 0 (i + 8)
    (((((sum + ntoh 2 (getLe d i 2)) % 2 ^ 32 + ntoh 2 (getLe d (i + 2) 2)) % 2 ^ 32 +
    ntoh 2 (getLe d (i + 4) 2)) % 2 ^ 32 + ntoh 2 (getLe d (i + 6) 2)) % 2 ^ 32) = _
  congr 1
  omega

theorem wordsLe_payload (d : ℕ → UInt8) (i m : ℕ) :
    wordsLe (getBytes d i m) = wordsLe (getBytes d i (2 * (m / 2))) + if m % 2 =
      1 then getLe d (i + 2 * (m / 2)) 1 else 0 := by
  have hm : m = 2 * (m / 2) + m % 2 := by omega
  have happ :
    getBytes d i m = getBytes d i (2 * (m / 2)) ++ getBytes d (i + 2 * (m / 2)) (m % 2) := by
    rw [← getBytes_add, ← hm]
  rw [happ, wordsLe_append (by rw [length_getBytes]; omega)]
  congr 1
  rcases Nat.mod_two_eq_zero_or_one m with h | h <;> rw [h]
  · rfl
  · rw [if_pos rfl]
    rfl

/-- What `udp_csum` adds up, piece by piece. -/
theorem wordsLe_summed (d : ℕ → UInt8) (o : ℕ) :
    wordsLe (summed d o) = halves (getLe d 26 4) + (halves (getLe d 30 4) + (ntoh 2 (getLe d 23 1) +
      (ntoh 2 (getLe d (o + 4) 2) +
        (ntoh 2 (getLe d o 2) + (ntoh 2 (getLe d (o + 2) 2) + (ntoh 2 (getLe d (o + 4) 2) +
        (ntoh 2 (getLe d (o + 6) 2) +
          wordsLe (getBytes d (o + 8) (getLe d (o + 4) 2 - 8))))))))) := by
  unfold summed
  rw [wordsLe_append (by rw [length_be]), wordsLe_append (by rw [length_be]),
    wordsLe_append (by simp),
    wordsLe_append (by rw [length_be]), wordsLe_append (by rw [length_be]),
      wordsLe_append (by rw [length_be]),
    wordsLe_append (by rw [length_be]), wordsLe_append (by rw [length_be]), wordsLe_be_four,
      wordsLe_be_four,
    wordsLe_zero_cons, getLe_one]
  simp only [wordsLe_be_two]

theorem wordsLe_summed_lt (d : ℕ → UInt8) (o : ℕ) : wordsLe (summed d o) < 2 ^ 32 - 2 ^ 17 := by
  have hlen := getLe_lt d (o + 4) 2
  have hle := wordsLe_le (summed d o)
  have hl : (summed d o).length = 20 + (getLe d (o + 4) 2 - 8) := by
    simp [summed]
    omega
  rw [hl] at hle
  omega

/-- **The sum of `udp_csum`**: the carry is added in once. -/
theorem udpCsumOf_eq (h8 : 8 ≤ getLe d (o + 4) 2) :
    udpCsumOf d o = not16 (foldOnce (wordsLe (summed d o))) := by
  have hlt := wordsLe_summed_lt d o
  have hsum := wordsLe_summed d o
  obtain ⟨m, hm⟩ : ∃ m, getLe d (o + 4) 2 = m + 8 := ⟨getLe d (o + 4) 2 - 8, by omega⟩
  have hpay := wordsLe_payload d (o + 8) m
  rw [hm] at hsum
  rw [Nat.add_sub_cancel, hpay] at hsum
  unfold udpCsumOf
  rw [hm]
  dsimp only
  rw [show (m + 8) / 2 = m / 2 + 4 by omega, show (m + 8) % 2 = m % 2 by omega,
    show o + (m / 2 + 4) * 2 = o + 8 + 2 * (m / 2) by omega]
  generalize hc : (if m % 2 = 1 then getLe d (o + 8 + 2 * (m / 2)) 1 else 0) = c at hsum ⊢
  rw [udpSumOf_header (by rw [hm]; omega), udpSumOf_payload (by rw [hm]; omega), hm]
  have htotal :
    halves (getLe d 26 4) + halves (getLe d 30 4) + ntoh 2 (getLe d 23 1) + ntoh 2 (m + 8) +
      (ntoh 2 (getLe d o 2) + ntoh 2 (getLe d (o + 2) 2) + ntoh 2 (m + 8) +
        ntoh 2 (getLe d (o + 6) 2)) +
      wordsLe (getBytes d (o + 8) (2 * (m / 2))) + c = wordsLe (summed d o) := by
    rw [hsum]
    omega
  have hmod : wordsLe (summed d o) % 2 ^ 32 = wordsLe (summed d o) := Nat.mod_eq_of_lt (by omega)
  rw [htotal, hmod, foldOnce]

end

/-! ### Bytes in network format -/

section

variable {d : ℕ → UInt8} {i n v : ℕ}

theorem be_mod (n v : ℕ) : be n (v % 256 ^ n) = be n v := by
  rw [be, leBytes_mod, be]

theorem leBytes_ntoh (n v : ℕ) : leBytes n (ntoh n v) = be n v := by
  have h := leBytes_leVal (leBytes n v).reverse
  rwa [List.length_reverse, length_leBytes] at h

/-- A number that was converted is the bytes of the wire again. -/
theorem be_ntoh (d : ℕ → UInt8) (i n : ℕ) : be n (ntoh n (getLe d i n)) = getBytes d i n := by
  have h := leBytes_leVal (getBytes d i n)
  rw [length_getBytes] at h
  rw [be, leBytes_ntoh, be, List.reverse_reverse, getLe, h]

theorem leBytes_getLe (d : ℕ → UInt8) (i n : ℕ) : leBytes n (getLe d i n) = getBytes d i n := by
  have h := leBytes_leVal (getBytes d i n)
  rwa [length_getBytes] at h

theorem getBytes_putLe (d : ℕ → UInt8) (i n v : ℕ) :
    getBytes (putLe d i n v) i n = leBytes n v := by
  have h := getBytes_putBytes d i (leBytes n v)
  rwa [length_leBytes] at h

theorem getBytes_putLe_disjoint {j k : ℕ} (h : j + k ≤ i ∨ i + n ≤ j) :
    getBytes (putLe d i n v) j k = getBytes d j k :=
      getBytes_putBytes_disjoint (by rwa [length_leBytes])

/-- A number that is converted is in network format then. -/
theorem getBytes_swapAt (d : ℕ → UInt8) (i n : ℕ) :
    getBytes (swapAt n i d) i n = be n (getLe d i n) := by
  rw [swapAt, getBytes_putLe, leBytes_ntoh]

theorem getBytes_swapAt_disjoint {j k : ℕ} (h : j + k ≤ i ∨ i + n ≤ j) :
    getBytes (swapAt n i d) j k = getBytes d j k := getBytes_putLe_disjoint h

end

/-! ### What `udp_process` adds up -/

/-- The bytes that the checksum of a frame is about: the pseudo header, made of the addresses, the
protocol and the length, and the datagram. -/
def covered (d : ℕ → UInt8) : List UInt8 :=
  getBytes d 26 4 ++
    (getBytes d 30 4 ++
      ([0, d 23] ++ (getBytes d (ipEnd d + 4) 2 ++ getBytes d (ipEnd d) (udpLen d))))

/-- The same for a datagram of an odd length that ends in its header: the header has been converted,
and the byte behind the datagram is taken for its last. -/
def shifted (d : ℕ → UInt8) : List UInt8 :=
  getBytes d 26 4 ++ (getBytes d 30 4 ++ ([0, d 23] ++ (getBytes d (ipEnd d + 4) 2 ++
    (getBytes d (ipEnd d) (udpLen d - 1) ++ [d (ipEnd d + udpLen d)]))))

section

variable {s : Rx} {d : ℕ → UInt8} {r o : ℕ} {E : Empty → Rx → Prop}

theorem getLe_hostUdp_of_lt {i n : ℕ} (h : i + n ≤ o) : getLe (hostUdp o d) i n = getLe d i n := by
  simp (disch := omega) only [hostUdp, getLe_swapAt_disjoint]

theorem getLe_hostUdp_sport : getLe (hostUdp o d) o 2 = ntoh 2 (getLe d o 2) := by
  simp (disch := omega) only [hostUdp, getLe_swapAt_disjoint, getLe_swapAt]

theorem getLe_hostUdp_dport : getLe (hostUdp o d) (o + 2) 2 = ntoh 2 (getLe d (o + 2) 2) := by
  simp (disch := omega) only [hostUdp, getLe_swapAt_disjoint, getLe_swapAt]

theorem getBytes_hostUdp_of_ge {i n : ℕ} (h : o + 8 ≤ i) :
    getBytes (hostUdp o d) i n = getBytes d i n := by
  simp (disch := omega) only [hostUdp, getBytes_swapAt_disjoint]

theorem getBytes_hostIp_of_ge {i n : ℕ} (h : 34 ≤ i) : getBytes (hostIp d) i n = getBytes d i n :=
  getBytes_congr fun q _ => hostIp_of_ge (by omega)

theorem ipEnd_ge (h5 : 5 ≤ getLe d 14 1 % 16) : 34 ≤ ipEnd d := by
  unfold ipEnd
  omega

theorem byte_of_getLe {d d' : ℕ → UInt8} {i : ℕ} (h : getLe d i 1 = getLe d' i 1) : d i = d' i := by
  rw [getLe_one, getLe_one] at h
  exact UInt8.toNat_inj.mp h

instance : DecidablePred HasUdpCsum := fun d =>
  inferInstanceAs (Decidable (ntoh 2 (getLe d (ipEnd d + 6) 2) ≠ 0))

/-- What `udp_process` adds up is what the checksum is about. -/
theorem summed_host (h5 : 5 ≤ getLe d 14 1 % 16) (h8 : 8 ≤ udpLen d) :
    summed (hostUdp (ipEnd d) (hostIp d)) (ipEnd d) = covered d := by
  have ho := ipEnd_ge h5
  have hproto : hostUdp (ipEnd d) (hostIp d) 23 = d 23 :=
    byte_of_getLe (by rw [getLe_hostUdp_of_lt (by omega), getLe_hostIp_proto])
  have hsplit : getBytes d (ipEnd d) (udpLen d) =
    getBytes d (ipEnd d) 2 ++ (getBytes d (ipEnd d + 2) 2 ++
      (getBytes d (ipEnd d + 4) 2 ++
        (getBytes d (ipEnd d + 6) 2 ++ getBytes d (ipEnd d + 8) (udpLen d - 8)))) := by
    rw [← getBytes_add, ← getBytes_add, ← getBytes_add, ← getBytes_add]
    congr 1
    omega
  unfold summed covered
  rw [hsplit, getLe_hostUdp_of_lt (by omega), getLe_hostUdp_of_lt (by omega), hproto,
    getLe_hostIp_saddr,
    getLe_hostIp_daddr, getLe_hostUdp_len, getLe_hostUdp_sport, getLe_hostUdp_dport,
    getLe_hostUdp_csum, getBytes_hostUdp_of_ge (by omega), getBytes_hostIp_of_ge (by omega),
    getLe_hostIp_of_ge (by omega),
    getLe_hostIp_of_ge (by omega), getLe_hostIp_of_ge (by omega), getLe_hostIp_of_ge (by omega),
      ← udpLen]
  simp only [be_ntoh]
  rw [udpLen, be_ntoh]

/-- The sum of a received datagram. -/
theorem udpCsumOf_host (h5 : 5 ≤ getLe d 14 1 % 16) (h8 : 8 ≤ udpLen d) :
    udpCsumOf (hostUdp (ipEnd d) (hostIp d)) (ipEnd d) =
      not16 (foldOnce (wordsLe (covered d))) := by
  have ho := ipEnd_ge h5
  have hlen : getLe (hostUdp (ipEnd d) (hostIp d)) (ipEnd d + 4) 2 = udpLen d := by
    rw [getLe_hostUdp_len, getLe_hostIp_of_ge (by omega), udpLen]
  rw [← summed_host h5 h8]
  apply udpCsumOf_eq
  rwa [hlen]

theorem ntoh_two {v : ℕ} (h : v < 2 ^ 16) : ntoh 2 v = swap16 v := by
  have hval : ntoh 2 v = (UInt8.ofNat (v / 256)).toNat + 256 * ((UInt8.ofNat v).toNat + 256 * 0) :=
    rfl
  rw [hval, UInt8.toNat_ofNat', UInt8.toNat_ofNat', swap16]
  omega

/-- The words of a header that has been converted are added as they were received. -/
theorem udpSumOf_short {e : ℕ → UInt8} {k sum : ℕ} (hn : n ≤ k)
    (hword : ∀ j < n, ntoh 2 (getLe e (i + 2 * j) 2) = wordsLe (getBytes d (i + 2 * j) 2))
    (hsum : sum + wordsLe (getBytes d i (2 * n)) < 2 ^ 32) :
    udpSumOf e n k i sum = sum + wordsLe (getBytes d i (2 * n)) := by
  induction n generalizing i k sum with
  | zero => rfl
  | succ n ih =>
    have hsplit : wordsLe (getBytes d i (2 * (n + 1))) =
        wordsLe (getBytes d i 2) + wordsLe (getBytes d (i + 2) (2 * n)) := by
      rw [show 2 * (n + 1) = 2 + 2 * n by omega, getBytes_add,
        wordsLe_append (by rw [length_getBytes])]
    have hfirst := hword 0 (Nat.succ_pos n)
    rw [Nat.mul_zero, Nat.add_zero] at hfirst
    rw [hsplit] at hsum ⊢
    rw [udpSumOf, if_pos (by omega), hfirst, Nat.mod_eq_of_lt (by omega)]
    rw [ih (by omega) (fun j hj => ?_) (by omega), Nat.add_assoc]
    have := hword (j + 1) (Nat.succ_lt_succ hj)
    rwa [show i + 2 * (j + 1) = i + 2 + 2 * j by omega] at this

theorem ntoh_ntoh (d : ℕ → UInt8) (i : ℕ) :
    ntoh 2 (ntoh 2 (getLe d i 2)) = wordsLe (getBytes d i 2) := by
  rw [← wordsLe_be_two, be_ntoh]

theorem getLe_hostUdp_word {j : ℕ} (hj : j < 4) :
    getLe (hostUdp o d) (o + 2 * j) 2 = ntoh 2 (getLe d (o + 2 * j) 2) := by
  obtain rfl | rfl | rfl | rfl : j = 0 ∨ j = 1 ∨ j = 2 ∨ j = 3 := by omega
  · exact getLe_hostUdp_sport
  · exact getLe_hostUdp_dport
  · exact getLe_hostUdp_len
  · exact getLe_hostUdp_csum

/-- The first byte of a word of the header in host format is the one that came behind it. -/
theorem hostUdp_byte {j : ℕ} (hj : j < 4) : hostUdp o d (o + 2 * j) = d (o + 2 * j + 1) := by
  have hword := getLe_hostUdp_word (d := d) (o := o) hj
  have h0 := (hostUdp o d (o + 2 * j)).toNat_lt
  have h1 := (d (o + 2 * j)).toNat_lt
  have h2 := (d (o + 2 * j + 1)).toNat_lt
  have h3 := (hostUdp o d (o + 2 * j + 1)).toNat_lt
  have hn := getLe_lt d (o + 2 * j) 2
  rw [ntoh_two (by omega), swap16, getLe_two, getLe_two] at hword
  have hdiv : ((d (o + 2 * j)).toNat + 256 * (d (o + 2 * j + 1)).toNat) / 256 =
      (d (o + 2 * j + 1)).toNat := by
    omega
  apply UInt8.toNat_inj.mp
  omega

/-- The sum of a datagram whose length does not cover its header. -/
theorem udpCsumOf_short (h5 : 5 ≤ getLe d 14 1 % 16) (h8 : udpLen d < 8) :
    udpCsumOf (hostUdp (ipEnd d) (hostIp d)) (ipEnd d) =
      not16 (foldOnce (wordsLe (if udpLen d % 2 = 1 then shifted d else covered d))) := by
  have ho := ipEnd_ge h5
  have hbytes : ∀ j n, getBytes (hostIp d) (ipEnd d + j) n = getBytes d (ipEnd d + j) n :=
    fun j n => getBytes_hostIp_of_ge (by omega)
  have hlen : getLe (hostUdp (ipEnd d) (hostIp d)) (ipEnd d + 4) 2 = udpLen d := by
    rw [getLe_hostUdp_len, getLe_hostIp_of_ge (by omega), udpLen]
  have hproto : ntoh 2 (getLe d 23 1) = wordsLe [0, d 23] := by
    rw [wordsLe_zero_cons, getLe_one]
  have hudp : ntoh 2 (udpLen d) = wordsLe (getBytes d (ipEnd d + 4) 2) := ntoh_ntoh _ _
  have haddr : ∀ i, halves (ntoh 4 (getLe d i 4)) = wordsLe (getBytes d i 4) := fun i => by
    rw [← wordsLe_be_four, be_ntoh]
  have hle : ∀ i n, n ≤ 8 → wordsLe (getBytes d i n) < 2 ^ 20 := fun i n hn => by
    have := wordsLe_le (getBytes d i n)
    rw [length_getBytes] at this
    omega
  have h23 := wordsLe_le [0, d 23]
  rw [show ([0, d 23] : List UInt8).length = 2 from rfl] at h23
  have ha := hle 26 4 (by decide)
  have hb := hle 30 4 (by decide)
  have hc := hle (ipEnd d + 4) 2 (by decide)
  have hw := hle (ipEnd d) (2 * (udpLen d / 2)) (by omega)
  unfold udpCsumOf
  rw [hlen]
  dsimp only
  rw [getLe_hostUdp_of_lt (by omega), getLe_hostUdp_of_lt (by omega),
    getLe_hostUdp_of_lt (by omega),
    getLe_hostIp_saddr, getLe_hostIp_daddr, getLe_hostIp_proto, haddr, haddr, hproto, hudp,
    udpSumOf_short (d := d) (by omega) (fun j hj => ?_) (by omega)]
  · rw [← foldOnce]
    congr 2
    have hpseudo : ∀ l, wordsLe (getBytes d 26 4 ++ (getBytes d 30 4 ++ ([0, d 23] ++
        (getBytes d (ipEnd d + 4) 2 ++ l)))) = wordsLe (getBytes d 26 4) +
          (wordsLe (getBytes d 30 4) + (wordsLe [0, d 23] +
            (wordsLe (getBytes d (ipEnd d + 4) 2) + wordsLe l))) := fun l => by
      rw [wordsLe_append (by rw [length_getBytes]), wordsLe_append (by rw [length_getBytes]),
        wordsLe_append (by simp),
        wordsLe_append (by rw [length_getBytes])]
    split_ifs with hodd
    · have hlast : getLe (hostUdp (ipEnd d) (hostIp d)) (ipEnd d + udpLen d / 2 * 2) 1 =
          wordsLe [d (ipEnd d + udpLen d)] := by
        rw [getLe_one, Nat.mul_comm, hostUdp_byte (by omega), hostIp_of_ge (by omega),
          show ipEnd d + 2 * (udpLen d / 2) + 1 = ipEnd d + udpLen d by omega]
        rfl
      have hbyte := wordsLe_le [d (ipEnd d + udpLen d)]
      rw [show ([d (ipEnd d + udpLen d)] : List UInt8).length = 1 from rfl] at hbyte
      rw [hlast, shifted, hpseudo, wordsLe_append (by rw [length_getBytes]; omega),
        show udpLen d - 1 = 2 * (udpLen d / 2) by omega, Nat.mod_eq_of_lt (by omega)]
      omega
    · rw [covered, hpseudo, show 2 * (udpLen d / 2) = udpLen d by omega, Nat.mod_eq_of_lt (by
        rw [show 2 * (udpLen d / 2) = udpLen d by omega] at hw
        omega)]
      omega
  · rw [getLe_hostUdp_word (by omega), getLe_hostIp_of_ge (by omega), ntoh_ntoh]

/-- What `udp_process` adds up for a received datagram. -/
theorem udpCsumOf_received (h5 : 5 ≤ getLe d 14 1 % 16) :
    udpCsumOf (hostUdp (ipEnd d) (hostIp d)) (ipEnd d) = not16 (foldOnce (wordsLe
      (if udpLen d < 8 ∧ udpLen d % 2 = 1 then shifted d else covered d))) := by
  rcases Nat.lt_or_ge (udpLen d) 8 with h8 | h8
  · rw [udpCsumOf_short h5 h8]
    simp only [h8, true_and]
  · rw [udpCsumOf_host h5 h8, if_neg fun hc => absurd hc.1 (not_lt.mpr h8)]

theorem udpLen_lt (d : ℕ → UInt8) : udpLen d < 2 ^ 16 := by
  have := getLe_lt d (ipEnd d + 4) 2
  rw [udpLen, ntoh_two (by omega)]
  exact swap16_lt (by omega)

theorem wordsLe_covered_lt (d : ℕ → UInt8) : wordsLe (covered d) < 2 ^ 32 - 2 ^ 17 := by
  have hlen := udpLen_lt d
  have hle := wordsLe_le (covered d)
  have hl : (covered d).length = 12 + udpLen d := by
    simp [covered]
    omega
  rw [hl] at hle
  omega

theorem wordsLe_shifted_lt (d : ℕ → UInt8) : wordsLe (shifted d) < 2 ^ 32 - 2 ^ 17 := by
  have hlen := udpLen_lt d
  have hle := wordsLe_le (shifted d)
  have hl : (shifted d).length ≤ 13 + udpLen d := by
    simp [shifted]
    omega
  omega

theorem wp_udpDeliver : wp (udpDeliver o) (fun a _ => a = 0) E (s.at d r) := by
  simp only [udpDeliver, wp_bind, wp_rd, wp_read]
  cases (Rx.net _).socks.findIdx? _ with
  | none => rfl
  | some i =>
    simp only [wp_ite, wp_bind, wp_rd, wp_modify, wp_pure, ite_self]

/-- **The answer of `udp_process`**. -/
theorem wp_udpProcess (h5 : 5 ≤ getLe d 14 1 % 16) :
    wp udpProcess (fun a _ => a = if HasUdpCsum d →
      udpCsumOf (hostUdp (ipEnd d) (hostIp d)) (ipEnd d) = 0 then 0 else -1) E
      (s.at (hostIp d) r) := by
  have ho := ipEnd_ge h5
  have hcsum : getLe (hostUdp (ipEnd d) (hostIp d)) (ipEnd d + 6) 2 =
    ntoh 2 (getLe d (ipEnd d + 6) 2) := by
    rw [getLe_hostUdp_csum, getLe_hostIp_of_ge (by omega)]
  simp only [udpProcess, wp_bind, wp_ipData, getLe_hostIp_end, wp_buf2udp, wp_rd, hcsum]
  by_cases hsum : HasUdpCsum d
  · have hsum' : ntoh 2 (getLe d (ipEnd d + 6) 2) ≠ 0 := hsum
    rw [if_pos hsum', wp_bind, wp_udpCsum (by omega) (by omega), wp_ite]
    by_cases hbad : udpCsumOf (hostUdp (ipEnd d) (hostIp d)) (ipEnd d) = 0
    · rw [if_neg (not_not.mpr hbad), if_pos fun _ => hbad]
      exact wp_udpDeliver
    · rw [if_pos hbad, if_neg fun h => hbad (h hsum), wp_pure]
  · have hsum' : ¬ntoh 2 (getLe d (ipEnd d + 6) 2) ≠ 0 := hsum
    rw [if_neg hsum', wp_bind, wp_pure, wp_ite, if_neg (not_not.mpr rfl),
      if_pos fun h => absurd h hsum]
    exact wp_udpDeliver

end

/-! ### Sending -/

/-- A call of `udp_write` on a socket: its interface and addresses, and the bytes of the caller.
`dmac` is the address that `eth_set_dmac` finds. -/
structure Outgoing where
  dmac : List UInt8
  netif : Netif
  locIp : ℕ
  locPort : ℕ
  remIp : ℕ
  remPort : ℕ
  data : List UInt8
  dmac_size : dmac.length = 6

namespace Outgoing

/-- The bytes that are sent: what fits into 1500 bytes with the headers. -/
def payload (p : Outgoing) : List UInt8 := p.data.take (1500 - 42)

/-- `udp->len`. -/
def len (p : Outgoing) : ℕ := 8 + p.payload.length

/-- `iph->saddr`. -/
def saddr (p : Outgoing) : ℕ := if p.locIp ≠ 0 then p.locIp else p.netif.ips.getD 0 0

/-- The pseudo header of the datagram. -/
def pseudo (p : Outgoing) : List UInt8 := be 4 p.saddr ++ (be 4 p.remIp ++ ([0, 17] ++ be 2 p.len))

/-- The datagram with the checksum field `field`. -/
def datagram (p : Outgoing) (field : List UInt8) : List UInt8 :=
  be 2 p.locPort ++ (be 2 p.remPort ++ (be 2 p.len ++ (field ++ p.payload)))

end Outgoing

/-- The checksum of RFC 768: the complement of the one's complement sum, where 0 is sent as all
ones. -/
def rfcChecksum (l : List UInt8) : ℕ :=
  if reduce (wordsBe l) = 65535 then 65535 else 65535 - reduce (wordsBe l)

/-- `net_buf_alloc`, when there is room. -/
def netBufAlloc (size nic : ℕ) : NetBuf := ⟨nic, size, false, 0, 0, fun _ => 0, 0⟩

/-- `udp2buf`. -/
def udp2buf (o : ℕ) : RxM Unit := do
  swap 2 o
  swap 2 (o + 2)
  swap 2 (o + 4)
  swap 2 (o + 6)

/-- The bit-field `flags`, the low 3 bits of its word. -/
def setFlags (v : ℕ) : RxM Unit := do
  let w ← rd 2 20
  wr 2 20 (w / 8 * 8 + v % 8)

/-- The bit-field `frag_offs`, the high 13 bits. -/
def setFragOffs (v : ℕ) : RxM Unit := do
  let w ← rd 2 20
  wr 2 20 (w % 8 + v % 2 ^ 13 * 8)

/-- What `udp_write` does with the Ethernet header. -/
def writeEth (p : Outgoing) : RxM Unit := do
  wrBytes 0 p.dmac
  wrBytes 6 p.netif.mac
  wr 2 12 0x800
  eth2buf

/-- What `udp_write` fills into the IP header. -/
def writeIp (p : Outgoing) : RxM Unit := do
  setVersion 4
  setIhl 5
  wr 1 15 0
  wr 2 16 (20 + 8 + p.payload.length)
  wr 2 18 0
  setFlags 2
  setFragOffs 0
  wr 1 22 64
  wr 1 23 17
  wr 2 24 0
  wr 4 26 p.saddr
  wr 4 30 p.remIp

/-- What `udp_write` does with the datagram at index `o`. -/
def writeUdp (p : Outgoing) (o : ℕ) : RxM Unit := do
  wrBytes (o + 8) p.payload
  wr 2 o p.locPort
  wr 2 (o + 2) p.remPort
  wr 2 (o + 4) p.len
  wr 2 (o + 6) 0
  let csum ← udpCsum o
  udp2buf o
  wr 2 (o + 6) csum

/-- `udp_write`, once the address of the receiver is known, on the buffer that it allocated. -/
def udpWrite (p : Outgoing) : RxM ℕ := do
  writeEth p
  writeIp p
  let o ← ipData
  writeUdp p o
  ipv42buf
  let hlen ← iphlen
  let csum ← ipCsum 14 hlen
  wr 2 24 csum
  let s ← read
  send s.buf.size
  return p.payload.length

/-- The IP header in host format. -/
structure IpFilled (p : Outgoing) (d : ℕ → UInt8) : Prop where
  ihl : getLe d 14 1 = 0x54
  proto : getLe d 23 1 = 17
  saddr : getLe d 26 4 = p.saddr % 256 ^ 4
  daddr : getLe d 30 4 = p.remIp % 256 ^ 4

/-- The frame as it is sent, with the checksum `c` in the order of the machine. -/
structure Emitted (p : Outgoing) (c : ℕ) (d : ℕ → UInt8) : Prop where
  ihl : getLe d 14 1 = 0x45
  proto : d 23 = 17
  saddr : getBytes d 26 4 = be 4 p.saddr
  daddr : getBytes d 30 4 = be 4 p.remIp
  datagram : getBytes d 34 p.len = p.datagram (leBytes 2 c)

section

variable {p : Outgoing} {s : Rx} {d d' : ℕ → UInt8} {c r o i n : ℕ} {E : Empty → Rx → Prop}

theorem len_le (p : Outgoing) : p.len ≤ 1466 := by
  have := List.length_take_le (1500 - 42) p.data
  unfold Outgoing.len Outgoing.payload
  omega

@[simp] theorem wp_wrBytes {bs : List UInt8} {Q : Unit → Rx → Prop} :
    wp (wrBytes i bs) Q E (s.at d r) = Q () (s.at (putBytes d i bs) (max r (i + bs.length))) := rfl

theorem wp_send {Q : Unit → Rx → Prop}
    (h : ∀ t : Rx, t.net.sent = s.net.sent ++ [getBytes d 0 n] → Q () t) :
    wp (send n) Q E (s.at d r) := h _ rfl

theorem wp_writeEth : wp (writeEth p) (fun _ t => ∃ d' r', t = s.at d' r') E (s.at d r) := by
  simp only [writeEth, eth2buf, wp_bind, wp_wrBytes, wp_wr, wp_swap]
  exact ⟨_, _, rfl⟩

theorem wp_writeIp :
    wp (writeIp p) (fun _ t => ∃ d' r', t = s.at d' r' ∧ IpFilled p d') E (s.at d r) := by
  simp only [writeIp, setVersion, setIhl, setFlags, setFragOffs, wp_bind, wp_rd, wp_wr]
  refine ⟨_, _, rfl, ?_, ?_, ?_, ?_⟩
  · simp (disch := omega) only [getLe_putLe_disjoint, getLe_putLe]
    omega
  · simp (disch := omega) only [getLe_putLe_disjoint, getLe_putLe]
    rfl
  · simp (disch := omega) only [getLe_putLe_disjoint, getLe_putLe]
  · simp (disch := omega) only [getLe_putLe_disjoint, getLe_putLe]

/-- The memory when `udp_write` computes the checksum. -/
def filledUdp (p : Outgoing) (o : ℕ) (d : ℕ → UInt8) : ℕ → UInt8 :=
  putLe (putLe (putLe (putLe (putBytes d (o + 8) p.payload) o 2 p.locPort) (o + 2) 2 p.remPort)
    (o + 4) 2 p.len) (o + 6) 2 0

theorem getLe_filledUdp_len : getLe (filledUdp p o d) (o + 4) 2 = p.len := by
  have := len_le p
  simp (disch := omega) only [filledUdp, getLe_putLe_disjoint, getLe_putLe]
  omega

theorem getLe_filledUdp_of_lt (h : i + n ≤ o) : getLe (filledUdp p o d) i n = getLe d i n := by
  simp (disch := omega) only [filledUdp, getLe_putLe_disjoint]
  exact getLe_congr fun q hq => putBytes_of_lt (by omega)

theorem getBytes_filledUdp_payload :
    getBytes (filledUdp p o d) (o + 8) p.payload.length = p.payload := by
  simp (disch := omega) only [filledUdp, getBytes_putLe_disjoint, getBytes_putBytes]

/-- What `udp_write` adds up is what the checksum is about. -/
theorem summed_filledUdp (h : IpFilled p d) (ho : 34 ≤ o) :
    summed (filledUdp p o d) o = p.pseudo ++ p.datagram [0, 0] := by
  have hproto : filledUdp p o d 23 = 17 := by
    have hp : getLe (filledUdp p o d) 23 1 = 17 := by rw [getLe_filledUdp_of_lt (by omega), h.proto]
    rw [getLe_one] at hp
    exact UInt8.toNat_inj.mp hp
  have hsport : getLe (filledUdp p o d) o 2 = p.locPort % 256 ^ 2 := by
    simp (disch := omega) only [filledUdp, getLe_putLe_disjoint, getLe_putLe]
  have hdport : getLe (filledUdp p o d) (o + 2) 2 = p.remPort % 256 ^ 2 := by
    simp (disch := omega) only [filledUdp, getLe_putLe_disjoint, getLe_putLe]
  have hcsum : getLe (filledUdp p o d) (o + 6) 2 = 0 := by
    simp only [filledUdp, getLe_putLe]
    rfl
  have hpay : getBytes (filledUdp p o d) (o + 8) (p.len - 8) = p.payload := by
    rw [Outgoing.len, Nat.add_sub_cancel_left, getBytes_filledUdp_payload]
  unfold summed Outgoing.pseudo Outgoing.datagram
  rw [getLe_filledUdp_of_lt (by omega), getLe_filledUdp_of_lt (by omega), h.saddr, h.daddr, hproto,
    getLe_filledUdp_len,
    hsport, hdport, hcsum, hpay]
  simp only [be_mod, List.append_assoc]
  rfl

theorem wp_writeUdp (ho : 34 ≤ o) :
    wp (writeUdp p o) (fun _ t => ∃ r', t = s.at (putLe (hostUdp o (filledUdp p o d)) (o + 6) 2
      (udpCsumOf (filledUdp p o d) o)) r') E (s.at d r) := by
  have hbuf : udp2buf o = buf2udp o := rfl
  simp only [writeUdp, wp_bind, wp_wrBytes, wp_wr, hbuf]
  rw [← filledUdp, wp_udpCsum (by omega) (by omega), wp_buf2udp]
  exact ⟨_, rfl⟩

/-- The memory after `ipv42buf`. -/
def wireIp (d : ℕ → UInt8) : ℕ → UInt8 :=
  swapIpv4At (putLe (swapIhlAt d) 20 2
    (ntoh 2 ((getLe (swapIhlAt d) 20 2 % 8 * 2 ^ 13 + getLe (swapIhlAt d) 20 2 / 8) % 2 ^ 16)))

theorem wp_ipv42buf {Q : Unit → Rx → Prop} :
    wp ipv42buf Q E (s.at d r) = Q () (s.at (wireIp d) (max r 34)) := by
  have hmax : max (max (max (max r 15) (20 + 2)) (20 + 2)) 34 = max r 34 := by omega
  simp only [ipv42buf, wp_bind, wp_swapIhl, wp_rd, wp_wr, wp_swapIpv4, hmax]
  rw [← wireIp]

theorem getBytes_wireIp_of_ge (h : 34 ≤ i) : getBytes (wireIp d) i n = getBytes d i n := by
  simp (disch := omega) only [wireIp, swapIpv4At, swapIhlAt, getBytes_swapAt_disjoint,
    getBytes_putLe_disjoint]

theorem getLe_wireIp_ihl : getLe (wireIp d) 14 1 = getLe d 14 1 % 16 * 16 + getLe d 14 1 / 16 := by
  have := @getLe_one_lt d 14
  simp (disch := decide) only [wireIp, swapIpv4At, swapIhlAt, getLe_swapAt_disjoint,
    getLe_putLe_disjoint, getLe_putLe]
  omega

theorem getLe_wireIp_proto : getLe (wireIp d) 23 1 = getLe d 23 1 := by
  simp (disch := decide) only [wireIp, swapIpv4At, swapIhlAt, getLe_swapAt_disjoint,
    getLe_putLe_disjoint]

theorem getBytes_wireIp_saddr : getBytes (wireIp d) 26 4 = be 4 (getLe d 26 4) := by
  simp (disch := decide) only [wireIp, swapIpv4At, swapIhlAt, getBytes_swapAt_disjoint,
    getBytes_swapAt, getLe_swapAt_disjoint, getLe_putLe_disjoint]

theorem getBytes_wireIp_daddr : getBytes (wireIp d) 30 4 = be 4 (getLe d 30 4) := by
  simp (disch := decide) only [wireIp, swapIpv4At, swapIhlAt, getBytes_swapAt,
    getLe_swapAt_disjoint, getLe_putLe_disjoint]

/-- The datagram, when its header is in network format. -/
theorem getBytes_datagram :
    getBytes (putLe (hostUdp o (filledUdp p o d)) (o + 6) 2 c) o p.len =
      p.datagram (leBytes 2 c) := by
  have hsport : getLe (filledUdp p o d) o 2 = p.locPort % 256 ^ 2 := by
    simp (disch := omega) only [filledUdp, getLe_putLe_disjoint, getLe_putLe]
  have hdport : getLe (filledUdp p o d) (o + 2) 2 = p.remPort % 256 ^ 2 := by
    simp (disch := omega) only [filledUdp, getLe_putLe_disjoint, getLe_putLe]
  rw [show p.len =
    2 + (2 + (2 + (2 + p.payload.length))) by unfold Outgoing.len; omega,
    getBytes_add, getBytes_add,
    getBytes_add, getBytes_add, Outgoing.datagram]
  simp only [Nat.add_assoc, Nat.reduceAdd]
  simp (disch := omega) only [getBytes_putLe, getBytes_putLe_disjoint, hostUdp, getBytes_swapAt,
    getBytes_swapAt_disjoint, getLe_swapAt_disjoint, hsport, hdport, be_mod, getLe_filledUdp_len,
      getBytes_filledUdp_payload]

/-- What `udp_write` sends. -/
theorem emitted (h : IpFilled p d) (x : ℕ) :
    Emitted p c (putLe (wireIp (putLe (hostUdp 34 (filledUdp p 34 d)) 40 2 c)) 24 2 x) := by
  have hbelow : ∀ {i n : ℕ}, i + n ≤ 34 →
    getLe (putLe (hostUdp 34 (filledUdp p 34 d)) 40 2 c) i n = getLe d i n := by
    intro i n hi
    rw [getLe_putLe_disjoint (by omega), getLe_hostUdp_of_lt hi, getLe_filledUdp_of_lt hi]
  constructor
  · rw [getLe_putLe_disjoint (by omega), getLe_wireIp_ihl, hbelow (by decide), h.ihl]
  · apply UInt8.toNat_inj.mp
    rw [← getLe_one, getLe_putLe_disjoint (by omega), getLe_wireIp_proto,
      hbelow (by decide), h.proto]
    rfl
  · rw [getBytes_putLe_disjoint (by omega), getBytes_wireIp_saddr, hbelow (by decide),
      h.saddr, be_mod]
  · rw [getBytes_putLe_disjoint (by omega), getBytes_wireIp_daddr, hbelow (by decide),
      h.daddr, be_mod]
  · rw [getBytes_putLe_disjoint (by omega), getBytes_wireIp_of_ge (by omega)]
    exact getBytes_datagram

/-- **`udp_write`**: the frame that it sends. -/
theorem wp_udpWrite (p : Outgoing) (net : Stack) (nic : ℕ) :
    wp (udpWrite p)
      (fun n t => n = p.payload.length ∧ ∃ d, t.net.sent = net.sent ++ [getBytes d 0 (34 + p.len)] ∧
      Emitted p (not16 (foldOnce (wordsLe (p.pseudo ++ p.datagram [0, 0])))) d) E
        ⟨net, netBufAlloc (34 + p.len) nic⟩ := by
  have hstart : (⟨net, netBufAlloc (34 + p.len) nic⟩ : Rx) =
    (⟨net, netBufAlloc (34 + p.len) nic⟩ : Rx).at (fun _ => 0) 0 := rfl
  rw [hstart]
  generalize hs : (⟨net, netBufAlloc (34 + p.len) nic⟩ : Rx) = s
  have hsize : s.buf.size = 34 + p.len := by rw [← hs]; rfl
  have hnet : s.net = net := by rw [← hs]
  rw [udpWrite, wp_bind]
  refine wp_writeEth.mono (fun _ t ht => ?_) fun _ _ => id
  obtain ⟨d, r, rfl⟩ := ht
  rw [wp_bind]
  refine wp_writeIp.mono (fun _ t ht => ?_) fun _ _ => id
  obtain ⟨d, r, rfl, hip⟩ := ht
  rw [wp_bind, wp_ipData, hip.ihl, wp_bind, show 14 + 0x54 / 16 * 4 = 34 from rfl]
  refine (wp_writeUdp (by decide)).mono (fun _ t ht => ?_) fun _ _ => id
  obtain ⟨r, rfl⟩ := ht
  have hcsum : udpCsumOf (filledUdp p 34 d) 34 =
    not16 (foldOnce (wordsLe (p.pseudo ++ p.datagram [0, 0]))) := by
    have h8 : 8 ≤ p.len := Nat.le_add_right _ _
    rw [udpCsumOf_eq (by rwa [getLe_filledUdp_len]), summed_filledUdp hip le_rfl]
  simp only [wp_bind, wp_ipv42buf, iphlen, wp_rd, wp_pure, wp_ipCsum, wp_wr, wp_read]
  refine wp_send fun t ht => ?_
  rw [hnet, Rx.at_size, hsize] at ht
  refine ⟨trivial, _, ht, ?_⟩
  rw [← hcsum]
  exact emitted hip _

/-! ### The checksum on both sides -/

theorem Emitted.congr (h : Emitted p c d)
    (hd : getBytes d' 0 (34 + p.len) = getBytes d 0 (34 + p.len)) : Emitted p c d' := by
  have hbytes : ∀ {i n : ℕ}, i + n ≤ 34 + p.len → getBytes d' i n = getBytes d i n := by
    intro i n hi
    have hsplit : 34 + p.len = i + (n + (34 + p.len - i - n)) := by omega
    rw [hsplit, getBytes_add, getBytes_add d, getBytes_add d', getBytes_add d] at hd
    have hrest := (List.append_inj hd (by simp)).2
    have := (List.append_inj hrest (by simp)).1
    rwa [Nat.zero_add] at this
  have hle : ∀ {i n : ℕ}, i + n ≤ 34 + p.len →
    getLe d' i n = getLe d i n := fun hi => by rw [getLe, getLe, hbytes hi]
  constructor
  · rw [hle (by omega), h.ihl]
  · rw [byte_of_getLe (hle (show 23 + 1 ≤ _ by omega)), h.proto]
  · rw [hbytes (by omega), h.saddr]
  · rw [hbytes (by omega), h.daddr]
  · rw [hbytes le_rfl, h.datagram]

theorem Emitted.ipEnd (h : Emitted p c d) : ipEnd d = 34 := by
  rw [Net.ipEnd, h.ihl]

theorem Emitted.fields (h : Emitted p c d) :
    getBytes d 38 2 = be 2 p.len ∧ getBytes d 40 2 = leBytes 2 c := by
  have hd := h.datagram
  rw [show p.len =
    2 + (2 + (2 + (2 + p.payload.length))) by unfold Outgoing.len; omega,
    getBytes_add, getBytes_add,
    getBytes_add, getBytes_add, Outgoing.datagram] at hd
  have h2 := (List.append_inj (List.append_inj hd (by simp)).2 (by simp)).2
  have h3 := List.append_inj h2 (by simp)
  exact ⟨h3.1, (List.append_inj h3.2 (by simp)).1⟩

theorem Emitted.udpLen (h : Emitted p c d) : udpLen d = p.len := by
  have hlen := len_le p
  have hv : ntoh 2 (getLe d 38 2) = p.len % 256 ^ 2 := by
    rw [ntoh, leBytes_getLe, h.fields.1, be, List.reverse_reverse, leVal_leBytes]
  rw [Net.udpLen, h.ipEnd, hv]
  omega

/-- The receiver adds up what was sent. -/
theorem Emitted.covered (h : Emitted p c d) : covered d = p.pseudo ++ p.datagram (leBytes 2 c) := by
  rw [Net.covered, h.ipEnd, h.udpLen, h.saddr, h.daddr, h.proto, h.fields.1, h.datagram,
    Outgoing.pseudo]
  simp only [List.append_assoc]

theorem wordsLe_field (p : Outgoing) {c : ℕ} (hc : c < 2 ^ 16) :
    wordsLe (p.pseudo ++ p.datagram (leBytes 2 c)) =
      wordsLe (p.pseudo ++ p.datagram [0, 0]) + c := by
  have hval : wordsLe (leBytes 2 c) = c := by
    have h := leVal_leBytes 2 c
    have hle : wordsLe (leBytes 2 c) = leVal (leBytes 2 c) := by
      show (UInt8.ofNat c).toNat + 256 * (UInt8.ofNat (c / 256)).toNat + 0 =
        (UInt8.ofNat c).toNat + 256 * ((UInt8.ofNat (c / 256)).toNat + 256 * 0)
      omega
    rw [hle, h, Nat.mod_eq_of_lt (by omega)]
  have hsum : ∀ f : List UInt8, f.length = 2 →
    wordsLe (p.pseudo ++ p.datagram f) = wordsLe p.pseudo + (wordsLe (be 2 p.locPort) +
      (wordsLe (be 2 p.remPort) + (wordsLe (be 2 p.len) + (wordsLe f + wordsLe p.payload)))) := by
    intro f hf
    rw [wordsLe_append (by simp [Outgoing.pseudo]), Outgoing.datagram, wordsLe_append (by simp),
      wordsLe_append (by simp),
      wordsLe_append (by simp), wordsLe_append (by rw [hf])]
  rw [hsum _ (length_leBytes 2 c), hsum _ rfl, hval]
  show _ = wordsLe p.pseudo + (_ + (_ + (_ + (0 + _)))) + c
  omega

theorem wordsLe_lt (p : Outgoing) : wordsLe (p.pseudo ++ p.datagram [0, 0]) < 2 ^ 26 := by
  have hlen := len_le p
  have hle := wordsLe_le (p.pseudo ++ p.datagram [0, 0])
  have hl : (p.pseudo ++ p.datagram [0, 0]).length = 12 + p.len := by
    simp [Outgoing.pseudo, Outgoing.datagram, Outgoing.len]
    omega
  rw [hl] at hle
  omega

theorem leBytes_two_inj {v w : ℕ} (hv : v < 2 ^ 16) (hw : w < 2 ^ 16) :
    leBytes 2 v = leBytes 2 w ↔ v = w := by
  constructor
  · intro h
    have h' := congrArg leVal h
    rw [leVal_leBytes, leVal_leBytes, Nat.mod_eq_of_lt (by omega),
      Nat.mod_eq_of_lt (by omega)] at h'
    exact h'
  · rintro rfl
    rfl

/-- The checksum of RFC 768 in the order of the machine. -/
theorem swap16_rfcChecksum (l : List UInt8) :
    swap16 (rfcChecksum l) = if reduce (wordsLe l) = 65535 then 65535
      else 65535 - reduce (wordsLe l) := by
  have hlt := reduce_lt (wordsBe l)
  have hfull : swap16 (reduce (wordsBe l)) = 65535 ↔ reduce (wordsBe l) = 65535 := by
    unfold swap16
    omega
  rw [reduce_wordsLe, rfcChecksum]
  by_cases h : reduce (wordsBe l) = 65535
  · rw [if_pos h, if_pos (hfull.mpr h)]
    rfl
  · rw [if_neg h, if_neg (mt hfull.mp h), swap16_compl hlt]

/-- The checksum of `udp_write` is that of RFC 768 when the carry that it adds in makes no other
and does not make all ones. -/
theorem field_iff (p : Outgoing) :
    leBytes 2 (not16 (foldOnce (wordsLe (p.pseudo ++ p.datagram [0, 0])))) =
      be 2 (rfcChecksum (p.pseudo ++ p.datagram [0, 0])) ↔
        foldOnce (wordsLe (p.pseudo ++ p.datagram [0, 0])) < 65535 := by
  have hS := wordsLe_lt p
  have hR : rfcChecksum (p.pseudo ++ p.datagram [0, 0]) < 2 ^ 16 := by
    unfold rfcChecksum
    split <;> omega
  have hswap := swap16_rfcChecksum (p.pseudo ++ p.datagram [0, 0])
  rw [← leBytes_ntoh, ntoh_two hR, leBytes_two_inj (by unfold not16; omega) (swap16_lt hR), hswap,
    ← reduce_foldOnce]
  have hfold : foldOnce (wordsLe (p.pseudo ++ p.datagram [0, 0])) < 65535 + 2 ^ 10 + 1 := by
    unfold foldOnce
    omega
  generalize foldOnce (wordsLe (p.pseudo ++ p.datagram [0, 0])) = x at hfold ⊢
  unfold not16 reduce
  split_ifs <;> omega

/-- `udp_process` accepts the frame, whatever comes after it in memory. -/
def Accepted (frame : List UInt8) : Prop :=
  ∀ (rx : Rx) (d : ℕ → UInt8), getBytes d 0 frame.length = frame → rx.buf.data = hostIp d →
    wp udpProcess (fun a _ => a = 0) (fun _ _ => False) rx

/-- `udp_write` sends the datagram with the checksum of RFC 768, behind 34 bytes of headers, and a
receiver accepts it. -/
def Agrees (p : Outgoing) (net : Stack) (nic : ℕ) : Prop :=
  wp (udpWrite p)
    (fun _ t => ∃ hdr : List UInt8, hdr.length = 34 ∧
      t.net.sent =
        net.sent ++ [hdr ++ p.datagram (be 2 (rfcChecksum (p.pseudo ++ p.datagram [0, 0])))] ∧
      Accepted (hdr ++ p.datagram (be 2 (rfcChecksum (p.pseudo ++ p.datagram [0, 0])))))
    (fun _ _ => False)
    ⟨net, netBufAlloc (34 + p.len) nic⟩

theorem Emitted.frame (h : Emitted p c d) :
    getBytes d 0 (34 + p.len) = getBytes d 0 34 ++ p.datagram (leBytes 2 c) := by
  rw [getBytes_add, Nat.zero_add, h.datagram]

/-- A sum below all ones and its complement give all ones. -/
theorem not16_foldOnce_add {S : ℕ} (hS : S < 2 ^ 26) (hx : foldOnce S < 65535) :
    not16 (foldOnce (S + not16 (foldOnce S))) = 0 := by
  have hc : not16 (foldOnce S) = 65535 - foldOnce S := by
    unfold not16
    omega
  rw [hc]
  unfold foldOnce at hx ⊢
  have hlow : (S + (65535 - (S % 2 ^ 16 + S / 2 ^ 16))) % 2 ^ 16 = 65535 - S / 2 ^ 16 := by omega
  have hhigh : (S + (65535 - (S % 2 ^ 16 + S / 2 ^ 16))) / 2 ^ 16 = S / 2 ^ 16 := by omega
  rw [hlow, hhigh, Nat.sub_add_cancel (by omega)]
  rfl

/-- The complement of a sum is 0 if the sum is all ones. -/
theorem not16_foldOnce_eq_zero_iff {S : ℕ} (hS : S < 2 ^ 32 - 2 ^ 17) :
    not16 (foldOnce S) = 0 ↔ reduce S = 65535 := by
  have hlt : foldOnce S < 131070 := by
    unfold foldOnce
    omega
  have hzero : not16 (foldOnce S) = 0 ↔ foldOnce S = 65535 := by
    unfold not16
    omega
  rw [hzero, ← reduce_foldOnce, reduce_eq_full_iff]
  omega

theorem reduce_wordsLe_full (l : List UInt8) :
    reduce (wordsLe l) = 65535 ↔ reduce (wordsBe l) = 65535 := by
  have hlt := reduce_lt (wordsBe l)
  rw [reduce_wordsLe, swap16]
  omega

/-- The receiver's sum of a datagram with the right checksum is all ones, with the carry added in
once. -/
theorem Emitted.csum (h : Emitted p (not16 (foldOnce (wordsLe (p.pseudo ++ p.datagram [0, 0])))) d)
    (hx : foldOnce (wordsLe (p.pseudo ++ p.datagram [0, 0])) < 65535) :
    udpCsumOf (hostUdp (Net.ipEnd d) (hostIp d)) (Net.ipEnd d) = 0 := by
  have hS := wordsLe_lt p
  have h5 : 5 ≤ getLe d 14 1 % 16 := by rw [h.ihl]
  have h8 : 8 ≤ Net.udpLen d := by
    rw [h.udpLen]
    exact Nat.le_add_right _ _
  rw [udpCsumOf_host h5 h8, h.covered, wordsLe_field p (by unfold not16; omega)]
  exact not16_foldOnce_add hS hx

/-- A frame that was sent with the right checksum is accepted. -/
theorem Emitted.accepted
    (h : Emitted p (not16 (foldOnce (wordsLe (p.pseudo ++ p.datagram [0, 0])))) d)
    (hx : foldOnce (wordsLe (p.pseudo ++ p.datagram [0, 0])) < 65535) :
    Accepted (getBytes d 0 (34 + p.len)) := by
  intro rx e he hrx
  rw [length_getBytes] at he
  have hem := h.congr he
  have hstart : rx = rx.at (hostIp e) rx.buf.reach := by
    rw [← hrx]
    rfl
  have hproc := @wp_udpProcess rx e rx.buf.reach (fun _ _ => False) (by rw [hem.ihl])
  rw [if_pos fun _ => hem.csum hx, ← hstart] at hproc
  exact hproc

/-- The frame has the checksum of RFC 768, and is accepted, when adding the carries in once is
enough. -/
theorem agrees_iff (p : Outgoing) (net : Stack) (nic : ℕ) :
    Agrees p net nic ↔ foldOnce (wordsLe (p.pseudo ++ p.datagram [0, 0])) < 65535 := by
  obtain ⟨n, t, hrun, -, d, hsent, hem⟩ := (wp_udpWrite p net nic).returns
  unfold Agrees
  rw [wp_of_eq hrun, hsent]
  constructor
  · rintro ⟨hdr, hlen, hframe, -⟩
    rw [hem.frame] at hframe
    have hf := (List.cons.inj (List.append_cancel_left hframe)).1
    have hd := (List.append_inj hf (by rw [hlen, length_getBytes])).2
    unfold Outgoing.datagram at hd
    have h3 := (List.append_inj (List.append_inj (List.append_inj hd rfl).2 rfl).2 rfl).2
    exact (field_iff p).mp (List.append_inj h3 (by simp)).1
  · intro hx
    refine ⟨getBytes d 0 34, length_getBytes _ _ _, ?_, ?_⟩
    · rw [hem.frame, (field_iff p).mpr hx]
    · rw [← (field_iff p).mpr hx, ← hem.frame]
      exact hem.accepted hx

/-- **A datagram with a checksum** is rejected if the sum that is taken is not all ones. -/
theorem udpProcess_rejects_iff {rx : Rx} (hrx : rx.buf.data = hostIp d) (h5 : 5 ≤ getLe d 14 1 % 16)
    (hcsum : HasUdpCsum d) :
    wp udpProcess (fun a _ => a = -1) (fun _ _ => False) rx ↔
      reduce (wordsBe (if udpLen d < 8 ∧ udpLen d % 2 = 1 then shifted d else covered d))
        ≠ 65535 := by
  have hstart : rx = rx.at (hostIp d) rx.buf.reach := by
    rw [← hrx]
    rfl
  have hproc := @wp_udpProcess rx d rx.buf.reach (fun _ _ => False) h5
  rw [← hstart] at hproc
  have hzero : udpCsumOf (hostUdp (ipEnd d) (hostIp d)) (ipEnd d) = 0 ↔ reduce (wordsBe
      (if udpLen d < 8 ∧ udpLen d % 2 = 1 then shifted d else covered d)) = 65535 := by
    rw [udpCsumOf_received h5, ← reduce_wordsLe_full, not16_foldOnce_eq_zero_iff]
    split_ifs
    · exact wordsLe_shifted_lt d
    · exact wordsLe_covered_lt d
  rw [ne_eq, ← hzero]
  refine wp_iff (hproc.mono (fun a _ ha => ?_) fun _ _ => False.elim)
  rw [ha]
  by_cases h0 : udpCsumOf (hostUdp (ipEnd d) (hostIp d)) (ipEnd d) = 0
  · rw [if_pos fun _ => h0]
    exact iff_of_false (by decide) (not_not.mpr h0)
  · rw [if_neg fun h => h0 (h hcsum)]
    exact iff_of_true rfl h0

/-- A datagram whose sum is not all ones is rejected, but for one of an odd length that ends in its
header. -/
theorem rejects_iff {rx : Rx} (hrx : rx.buf.data = hostIp d) (h5 : 5 ≤ getLe d 14 1 % 16)
    (hcsum : HasUdpCsum d) (hsum : reduce (wordsBe (covered d)) ≠ 65535) :
    wp udpProcess (fun a _ => a = -1) (fun _ _ => False) rx ↔
      (udpLen d < 8 → udpLen d % 2 = 1 → reduce (wordsBe (shifted d)) ≠ 65535) := by
  rw [udpProcess_rejects_iff hrx h5 hcsum]
  split_ifs with hshort
  · exact ⟨fun h _ _ => h, fun h => h hshort.1 hshort.2⟩
  · exact iff_of_true hsum fun h8 hodd => absurd ⟨h8, hodd⟩ hshort

end

/-- **The checksum of a datagram** is that of RFC 768, and a receiver accepts it, exactly when the
sum of its words with the carries added in once is below all ones; and `udp_process` rejects a
datagram with a checksum whose sum is not all ones, unless its length is odd and does not cover the
header, and its sum is all ones with the byte behind it for its last. -/
theorem udp_checksum_agreement (p : Outgoing) (net : Stack) (nic : ℕ) :
    (Agrees p net nic ↔ foldOnce (wordsLe (p.pseudo ++ p.datagram [0, 0])) < 65535) ∧
      ∀ (rx : Rx) (d : ℕ → UInt8), rx.buf.data = hostIp d → 5 ≤ getLe d 14 1 % 16 → HasUdpCsum d →
        reduce (wordsBe (covered d)) ≠ 65535 →
          (wp udpProcess (fun a _ => a = -1) (fun _ _ => False) rx ↔
            (udpLen d < 8 → udpLen d % 2 = 1 → reduce (wordsBe (shifted d)) ≠ 65535)) :=
  ⟨agrees_iff p net nic, fun _ _ => rejects_iff⟩

/-- A datagram from port 1024 of 10.0.2.15 to port 7 of 10.0.2.2. -/
def echoDatagram (data : List UInt8) : Outgoing :=
  ⟨noIps.mac, noIps, 0x0A00020F, 1024, 0x0A000202, 7, data, noIps.mac_size⟩

/-- A received frame with an empty datagram and the checksum 1. -/
def wrongChecksum (i : ℕ) : UInt8 :=
  [0xFF, 0xFF, 0xFF, 0xFF, 0xFF, 0xFF, 0, 0, 0, 0, 0, 0, 0x08, 0x00,
    0x45, 0, 0, 28, 0, 0, 0, 0, 64, 17, 0x7A, 0xD2, 0, 0, 0, 0, 0xFF, 0xFF, 0xFF, 0xFF,
    0, 67, 0, 68, 0, 8, 0, 1].getD i 0

theorem udp_checksum_agreement_hi : Agrees (echoDatagram [104, 105]) boundStack 0 ∧
    ∀ rx : Rx, rx.buf.data = hostIp wrongChecksum →
      wp udpProcess (fun a _ => a = -1) (fun _ _ => False) rx := by
  have h5 : 5 ≤ getLe wrongChecksum 14 1 % 16 := by decide +kernel
  have h8 : 8 ≤ udpLen wrongChecksum := by decide +kernel
  have hcsum : HasUdpCsum wrongChecksum := by decide +kernel
  have hsum : reduce (wordsBe (covered wrongChecksum)) ≠ 65535 := by decide +kernel
  have hx : foldOnce
    (wordsLe ((echoDatagram [104, 105]).pseudo ++ (echoDatagram [104, 105]).datagram [0, 0])) <
      65535 := by
    decide +kernel
  constructor
  · rw [(udp_checksum_agreement (echoDatagram [104, 105]) boundStack 0).1]
    exact hx
  · intro rx hrx
    have hrejects := (udp_checksum_agreement (echoDatagram [104, 105]) boundStack 0).2
    exact (hrejects rx wrongChecksum hrx h5 hcsum hsum).mpr fun hshort =>
      absurd hshort (not_lt.mpr h8)

/-- The sum of this datagram is `0x1FFFF`: the carry that is added in makes another, which is
lost. -/
theorem second_carry_lost : ¬Agrees (echoDatagram [0xFF, 0xFF, 228, 190]) boundStack 0 := by
  rw [agrees_iff]
  decide +kernel

end Cosiris.Net
