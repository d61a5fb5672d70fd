import Cosiris.Net.Dns
import Cosiris.Net.Udp

/-!
# Headers and their bytes

The headers of IP and DNS are converted in place between the bytes of the wire and
structures with bit-fields. Both ways are changes of fields that lie apart, each of which
is undone by the other way. What the structure has then is what the standards say: they
number the bits of a word from the most significant on.
-/

namespace Cosiris.Codec

open Net Dns Prog

/-- The number in the `n` bits from bit `k` on of the `m` octets at index `i`. Bit 0 is the most
significant bit of the first octet. -/
def wireBits (d : ℕ → UInt8) (i m k n : ℕ) : ℕ := ntoh m (getLe d i m) / 2 ^ (8 * m - k - n) % 2 ^ n

/-! ### The header of IP -/

/-- `struct ipv4_hdr`. -/
structure Ipv4Hdr where
  version : ℕ
  ihl : ℕ
  tos : ℕ
  len : ℕ
  id : ℕ
  flags : ℕ
  fragOffs : ℕ
  ttl : ℕ
  proto : ℕ
  csum : ℕ
  saddr : ℕ
  daddr : ℕ

/-- The structure in memory. -/
def Ipv4Hdr.load (d : ℕ → UInt8) : Ipv4Hdr where
  version := getBits 0 4 (getLe d 14 1)
  ihl := getBits 4 4 (getLe d 14 1)
  tos := getLe d 15 1
  len := getLe d 16 2
  id := getLe d 18 2
  flags := getBits 0 3 (getLe d 20 2)
  fragOffs := getBits 3 13 (getLe d 20 2)
  ttl := getLe d 22 1
  proto := getLe d 23 1
  csum := getLe d 24 2
  saddr := getLe d 26 4
  daddr := getLe d 30 4

/-- The header on the wire: five words of 32 bits. -/
def Ipv4Hdr.wire (d : ℕ → UInt8) : Ipv4Hdr where
  version := wireBits d 14 4 0 4
  ihl := wireBits d 14 4 4 4
  tos := wireBits d 14 4 8 8
  len := wireBits d 14 4 16 16
  id := wireBits d 18 4 0 16
  flags := wireBits d 18 4 16 3
  fragOffs := wireBits d 18 4 19 13
  ttl := wireBits d 22 4 0 8
  proto := wireBits d 22 4 8 8
  csum := wireBits d 22 4 16 16
  saddr := wireBits d 26 4 0 32
  daddr := wireBits d 30 4 0 32

/-! ### The header of DNS -/

/-- `struct dns_hdr`. -/
structure DnsHdr where
  id : ℕ
  qr : ℕ
  opcode : ℕ
  aa : ℕ
  tc : ℕ
  rd : ℕ
  ra : ℕ
  z : ℕ
  ad : ℕ
  cd : ℕ
  rcode : ℕ
  qCount : ℕ
  ansCount : ℕ
  authCount : ℕ
  addCount : ℕ

/-- The structure in memory. -/
def DnsHdr.load (d : ℕ → UInt8) : DnsHdr where
  id := getLe d 0 2
  qr := getFlag 0 1 d
  opcode := getFlag 1 4 d
  aa := getFlag 5 1 d
  tc := getFlag 6 1 d
  rd := getFlag 7 1 d
  ra := getFlag 8 1 d
  z := getFlag 9 1 d
  ad := getFlag 10 1 d
  cd := getFlag 11 1 d
  rcode := getFlag 12 4 d
  qCount := getLe d 4 2
  ansCount := getLe d 6 2
  authCount := getLe d 8 2
  addCount := getLe d 10 2

/-- The header on the wire: six words of 16 bits. -/
def DnsHdr.wire (d : ℕ → UInt8) : DnsHdr where
  id := wireBits d 0 2 0 16
  qr := wireBits d 2 2 0 1
  opcode := wireBits d 2 2 1 4
  aa := wireBits d 2 2 5 1
  tc := wireBits d 2 2 6 1
  rd := wireBits d 2 2 7 1
  ra := wireBits d 2 2 8 1
  z := wireBits d 2 2 9 1
  ad := wireBits d 2 2 10 1
  cd := wireBits d 2 2 11 1
  rcode := wireBits d 2 2 12 4
  qCount := wireBits d 4 2 0 16
  ansCount := wireBits d 6 2 0 16
  authCount := wireBits d 8 2 0 16
  addCount := wireBits d 10 2 0 16

/-! ### Conversions by field -/

/-- The number the other way round. -/
def swapConv (i n : ℕ) : Conv := ⟨i, n, ntoh n⟩

/-- The fields that `buf2ipv4` changes. -/
def ipIn : List Conv :=
  [⟨14, 1, fun b => b % 16 * 16 + b / 16⟩,
    ⟨20, 2, fun w => ntoh 2 w / 2 ^ 13 % 8 + ntoh 2 w % 2 ^ 13 * 8⟩,
    swapConv 16 2, swapConv 18 2, swapConv 24 2, swapConv 26 4, swapConv 30 4]

/-- The fields that `ipv42buf` changes. -/
def ipOut : List Conv :=
  [⟨14, 1, fun b => b % 16 * 16 + b / 16⟩,
    ⟨20, 2, fun w => ntoh 2 ((w % 8 * 2 ^ 13 + w / 8) % 2 ^ 16)⟩,
    swapConv 16 2, swapConv 18 2, swapConv 24 2, swapConv 26 4, swapConv 30 4]

/-- The second word of the header of DNS, from what it is on the wire. -/
def hostFlags (f : ℕ) : ℕ :=
  pack [(1, f / 2 ^ 15), (4, f / 2 ^ 11), (1, f / 2 ^ 10), (1, f / 2 ^ 9), (1, f / 2 ^ 8),
    (1, f / 2 ^ 7), (1, f / 2 ^ 6), (1, f / 2 ^ 5), (1, f / 2 ^ 4), (4, f)]

/-- The second word on the wire, from what it is in the structure. -/
def wireFlags (w : ℕ) : ℕ :=
  pack [(4, w / 2 ^ 12), (1, w / 2 ^ 11), (1, w / 2 ^ 10), (1, w / 2 ^ 9), (1, w / 2 ^ 8),
    (1, w / 2 ^ 7), (1, w / 2 ^ 6), (1, w / 2 ^ 5), (4, w / 2 ^ 1), (1, w)]

/-- The fields that `buf2dns` changes. -/
def dnsIn : List Conv :=
  [swapConv 0 2, swapConv 4 2, swapConv 6 2, swapConv 8 2, swapConv 10 2,
    ⟨2, 2, fun w => hostFlags (ntoh 2 w)⟩]

/-- The fields that `dns2buf` changes. -/
def dnsOut : List Conv :=
  [swapConv 0 2, swapConv 4 2, swapConv 6 2, swapConv 8 2, swapConv 10 2,
    ⟨2, 2, fun w => ntoh 2 (wireFlags w)⟩]

/-! ### Numbers on the wire -/

section

variable {d : ℕ → UInt8} {i m n k v w x y : ℕ}

theorem ntoh_ntoh (n v : ℕ) : ntoh n (ntoh n v) = v % 256 ^ n := by
  have h := leBytes_ntoh n v
  rw [ntoh, h, be, List.reverse_reverse, leVal_leBytes]

theorem leVal_append (xs ys : List UInt8) :
    leVal (xs ++ ys) = leVal xs + 256 ^ xs.length * leVal ys := by
  induction xs with
  | nil => simp [leVal]
  | cons b xs ih =>
    simp only [List.cons_append, leVal, ih, List.length_cons, Nat.pow_succ]
    ring

theorem ntoh_getLe (d : ℕ → UInt8) (i n : ℕ) :
    ntoh n (getLe d i n) = leVal (getBytes d i n).reverse := by
  rw [ntoh, leBytes_getLe]

/-- What is first on the wire is the higher part. -/
theorem ntoh_getLe_add (d : ℕ → UInt8) (i m n : ℕ) : ntoh (m + n) (getLe d i (m + n)) =
    ntoh m (getLe d i m) * 256 ^ n + ntoh n (getLe d (i + m) n) := by
  rw [ntoh_getLe, getBytes_add, List.reverse_append, leVal_append, List.length_reverse,
    length_getBytes, ntoh_getLe, ntoh_getLe, Nat.add_comm, Nat.mul_comm]

theorem ntoh_one (d : ℕ → UInt8) (i : ℕ) : ntoh 1 (getLe d i 1) = getLe d i 1 := by
  rw [ntoh_getLe]
  rfl

theorem two_pow_bytes (n : ℕ) : 256 ^ n = 2 ^ (8 * n) := by rw [Nat.pow_mul]

/-- Bits of what is first on the wire. -/
theorem wireBits_first (h : k + v ≤ 8 * m) : wireBits d i (m + n) k v = wireBits d i m k v := by
  have hexp : 8 * (m + n) - k - v = 8 * n + (8 * m - k - v) := by omega
  have hlt := ntoh_lt n (getLe d (i + m) n)
  rw [two_pow_bytes] at hlt
  rw [wireBits, ntoh_getLe_add, hexp, Nat.pow_add, ← Nat.div_div_eq_div_mul, two_pow_bytes,
    Nat.add_comm, Nat.add_mul_div_right _ _ (Nat.two_pow_pos _), Nat.div_eq_of_lt hlt, Nat.zero_add,
      wireBits]

/-- Bits of what follows on the wire. -/
theorem wireBits_rest (h : k + v ≤ 8 * n) :
    wireBits d i (m + n) (8 * m + k) v = wireBits d (i + m) n k v := by
  obtain ⟨e, he⟩ := Nat.exists_eq_add_of_le h
  have hexp : 8 * (m + n) - (8 * m + k) - v = e := by omega
  have hexp' : 8 * n - k - v = e := by omega
  have hpow : 256 ^ n = 2 ^ e * (2 ^ v * 2 ^ k) := by
    rw [two_pow_bytes, he, Nat.pow_add, Nat.pow_add]
    ring
  rw [wireBits, ntoh_getLe_add, hexp, hpow, Nat.mul_left_comm, Nat.mul_add_div (Nat.two_pow_pos e),
    Nat.mul_left_comm, Nat.mul_add_mod, wireBits, hexp']

/-- A whole number on the wire. -/
theorem wireBits_whole (d : ℕ → UInt8) (i n : ℕ) :
    wireBits d i n 0 (8 * n) = ntoh n (getLe d i n) := by
  have hlt := ntoh_lt n (getLe d i n)
  rw [two_pow_bytes] at hlt
  rw [wireBits, Nat.sub_zero, Nat.sub_self, Nat.pow_zero, Nat.div_one, Nat.mod_eq_of_lt hlt]

/-- A bit-field that is cut out with a mask. -/
theorem mask_shift (f k n : ℕ) : (f &&& (2 ^ n - 1) <<< k) >>> k = f / 2 ^ k % 2 ^ n := by
  rw [Nat.shiftRight_and_distrib, Nat.shiftLeft_shiftRight, Nat.and_two_pow_sub_one_eq_mod,
    Nat.shiftRight_eq_div_pow]

theorem or_eq_add (hx : x % 2 ^ k = 0) (hy : y < 2 ^ k) : x ||| y = x + y := by
  have h := Nat.two_pow_add_eq_or_of_lt hy (x / 2 ^ k)
  rw [Nat.mul_div_cancel' (Nat.dvd_of_mod_eq_zero hx)] at h
  exact h.symm

theorem Undoes_swap (i n : ℕ) : (swapConv i n).Undoes (swapConv i n) where
  pos := rfl
  width := rfl
  fn v hv := by
    have hv' : v < 256 ^ n := hv
    show ntoh n (ntoh n v % 256 ^ n) % 256 ^ n = v
    rw [Nat.mod_eq_of_lt (ntoh_lt n v), ntoh_ntoh, Nat.mod_mod, Nat.mod_eq_of_lt hv']

end

/-! ### The codec of IP -/

section

variable {s : Rx} {d : ℕ → UInt8} {r : ℕ} {E : Empty → Rx → Prop}

theorem wp_buf2ipv4 {Q : Unit → Rx → Prop} :
    wp buf2ipv4 Q E (s.at d r) = Q () (s.at (convert ipIn d) (max r 34)) := by
  have hmax : max (max (max (max r 15) (20 + 2)) (20 + 2)) 34 = max r 34 := by omega
  simp only [buf2ipv4, wp_bind, wp_swapIhl, wp_rd, wp_wr, wp_swapIpv4, hmax]
  rfl

theorem wp_ipv42buf {Q : Unit → Rx → Prop} :
    wp ipv42buf Q E (s.at d r) = Q () (s.at (convert ipOut d) (max r 34)) := Net.wp_ipv42buf

theorem ipIn_apart : ipIn.Pairwise Conv.Apart := by decide

theorem ipOut_apart : ipOut.Pairwise Conv.Apart := by decide

/-- Two parts of a number that change places. -/
theorem exchange_parts {a b v : ℕ} (h : v < a * b) :
    (v % a * b + v / a) % b = v / a ∧ (v % a * b + v / a) / b = v % a := by
  have hlt := Nat.div_lt_of_lt_mul h
  have hpos := Nat.zero_lt_of_lt hlt
  rw [Nat.add_comm, Nat.add_mul_mod_self_right, Nat.add_mul_div_right _ _ hpos,
    Nat.mod_eq_of_lt hlt, Nat.div_eq_of_lt hlt, Nat.zero_add]
  exact ⟨rfl, rfl⟩

theorem exchange_undo {a b v : ℕ} (h : v < a * b) :
    (v % a * b + v / a) % b * a + (v % a * b + v / a) / b = v := by
  rw [(exchange_parts h).1, (exchange_parts h).2, Nat.div_add_mod']

theorem swapIhl_undo {v : ℕ} (hv : v < 256 ^ 1) :
    ((v % 16 * 16 + v / 16) % 256 ^ 1 % 16 * 16 + (v % 16 * 16 + v / 16) % 256 ^ 1 / 16) % 256 ^ 1 =
      v := by
  have hlt : (v % 16 * 16 + v / 16) % 256 ^ 1 = v % 16 * 16 + v / 16 := by omega
  rw [hlt, exchange_undo (a := 16) (b := 16) hv, Nat.mod_eq_of_lt hv]

/-- The flags and the fragment offset, as they change places. -/
theorem hostFrag_eq {f : ℕ} (hf : f < 256 ^ 2) :
    (f / 2 ^ 13 % 8 + f % 2 ^ 13 * 8) % 256 ^ 2 = f % 2 ^ 13 * 8 + f / 2 ^ 13 := by
  have hflags : f / 2 ^ 13 % 8 = f / 2 ^ 13 := Nat.mod_eq_of_lt (by omega)
  rw [hflags, Nat.add_comm]
  exact Nat.mod_eq_of_lt (by omega)

theorem hostFrag_undo {v : ℕ} (hv : v < 256 ^ 2) :
    ntoh 2 (((ntoh 2 v / 2 ^ 13 % 8 + ntoh 2 v % 2 ^ 13 * 8) % 256 ^ 2 % 8 * 2 ^ 13 +
      (ntoh 2 v / 2 ^ 13 % 8 + ntoh 2 v % 2 ^ 13 * 8) % 256 ^ 2 / 8) % 2 ^ 16) % 256 ^ 2 = v := by
  have hlt := ntoh_lt 2 v
  have hmod : ntoh 2 v % 2 ^ 16 = ntoh 2 v := Nat.mod_eq_of_lt hlt
  rw [hostFrag_eq hlt, exchange_undo (a := 2 ^ 13) (b := 8) hlt, hmod, ntoh_ntoh, Nat.mod_mod,
    Nat.mod_eq_of_lt hv]

theorem wireFrag_undo {v : ℕ} (hv : v < 256 ^ 2) :
    (ntoh 2 (ntoh 2 ((v % 8 * 2 ^ 13 + v / 8) % 2 ^ 16) % 256 ^ 2) / 2 ^ 13 % 8 +
        ntoh 2 (ntoh 2 ((v % 8 * 2 ^ 13 + v / 8) % 2 ^ 16) % 256 ^ 2) % 2 ^ 13 * 8) %
      256 ^ 2 = v := by
  have hlt : v % 8 * 2 ^ 13 + v / 8 < 256 ^ 2 := by omega
  have hw : (v % 8 * 2 ^ 13 + v / 8) % 2 ^ 16 = v % 8 * 2 ^ 13 + v / 8 := Nat.mod_eq_of_lt hlt
  rw [hw, Nat.mod_eq_of_lt (ntoh_lt 2 _), ntoh_ntoh, Nat.mod_eq_of_lt hlt, hostFrag_eq hlt]
  exact exchange_undo (a := 8) (b := 2 ^ 13) hv

theorem ipOut_undoes : List.Forall₂ Conv.Undoes ipOut ipIn := by
  refine .cons ⟨rfl, rfl, fun v hv => swapIhl_undo hv⟩
    (.cons ⟨rfl, rfl, fun v hv => hostFrag_undo hv⟩ ?_)
  exact .cons (Undoes_swap _ _) (.cons (Undoes_swap _ _) (.cons (Undoes_swap _ _)
    (.cons (Undoes_swap _ _) (.cons (Undoes_swap _ _) .nil))))

theorem ipIn_undoes : List.Forall₂ Conv.Undoes ipIn ipOut := by
  refine .cons ⟨rfl, rfl, fun v hv => swapIhl_undo hv⟩
    (.cons ⟨rfl, rfl, fun v hv => wireFrag_undo hv⟩ ?_)
  exact .cons (Undoes_swap _ _) (.cons (Undoes_swap _ _) (.cons (Undoes_swap _ _)
    (.cons (Undoes_swap _ _) (.cons (Undoes_swap _ _) .nil))))

/-- A number of the header that is the other way round in the structure. -/
theorem getLe_ipIn_swap {i n : ℕ} (h : swapConv i n ∈ ipIn) :
    getLe (convert ipIn d) i n = ntoh n (getLe d i n) := by
  rw [← Nat.mod_eq_of_lt (ntoh_lt n (getLe d i n))]
  exact getLe_convert ipIn_apart h

/-- The first octet in the structure. -/
theorem getLe_ipIn_first (d : ℕ → UInt8) :
    getLe (convert ipIn d) 14 1 = getLe d 14 1 % 16 * 16 + getLe d 14 1 / 16 := by
  have h : getLe (convert ipIn d) 14 1 = (getLe d 14 1 % 16 * 16 + getLe d 14 1 / 16) % 256 ^ 1 :=
    getLe_convert (c := ⟨14, 1, _⟩) ipIn_apart (.head _)
  have hlt := @getLe_one_lt d 14
  rw [h]
  omega

/-- The flags and the fragment offset in the structure. -/
theorem getLe_ipIn_frag (d : ℕ → UInt8) : getLe (convert ipIn d) 20 2 =
    ntoh 2 (getLe d 20 2) % 2 ^ 13 * 8 + ntoh 2 (getLe d 20 2) / 2 ^ 13 := by
  have h : getLe (convert ipIn d) 20 2 =
      (ntoh 2 (getLe d 20 2) / 2 ^ 13 % 8 + ntoh 2 (getLe d 20 2) % 2 ^ 13 * 8) % 256 ^ 2 :=
    getLe_convert (c := ⟨20, 2, _⟩) ipIn_apart (.tail _ (.head _))
  rw [h, hostFrag_eq (ntoh_lt _ _)]

/-- **Every field of the structure is what the header on the wire says.** -/
theorem load_ipIn (d : ℕ → UInt8) : Ipv4Hdr.load (convert ipIn d) = Ipv4Hdr.wire d := by
  have hsame : ∀ i, (∀ c ∈ ipIn, i + 1 ≤ c.pos ∨ c.pos + c.width ≤ i) →
      getLe (convert ipIn d) i 1 = getLe d i 1 := fun i h => getLe_convert_of_apart h
  have hlen := @getLe_ipIn_swap d 16 2 (by simp [ipIn])
  have hid := @getLe_ipIn_swap d 18 2 (by simp [ipIn])
  have hcsum := @getLe_ipIn_swap d 24 2 (by simp [ipIn])
  have hsaddr := @getLe_ipIn_swap d 26 4 (by simp [ipIn])
  have hdaddr := @getLe_ipIn_swap d 30 4 (by simp [ipIn])
  have hoctet := fun i => (wireBits_whole d i 1).trans (ntoh_one d i)
  obtain ⟨hihl, hversion⟩ := exchange_parts (a := 16) (b := 16) (@getLe_one_lt d 14)
  obtain ⟨hflags, hoffs⟩ := exchange_parts (a := 2 ^ 13) (b := 8) (ntoh_lt 2 (getLe d 20 2))
  rw [Ipv4Hdr.load, Ipv4Hdr.wire, Ipv4Hdr.mk.injEq, getLe_ipIn_first, getLe_ipIn_frag,
    hlen, hid, hcsum, hsaddr, hdaddr, hsame 15 (by decide), hsame 22 (by decide),
    hsame 23 (by decide)]
  refine ⟨?_, ?_, ?_, ?_, ?_, ?_, ?_, ?_, ?_, ?_, ?_, ?_⟩
  · rw [wireBits_first (m := 1) (n := 3) (by decide), wireBits, ntoh_one, getBits, Nat.pow_zero,
      Nat.div_one]
    simp only [Nat.reduceMul, Nat.reduceSub, Nat.reducePow]
    have := @getLe_one_lt d 14
    omega
  · rw [wireBits_first (m := 1) (n := 3) (by decide), wireBits, ntoh_one, getBits]
    simp only [Nat.reduceMul, Nat.reduceSub, Nat.reducePow]
    omega
  · rw [wireBits_rest (m := 1) (n := 3) (k := 0) (by decide),
      wireBits_first (m := 1) (n := 2) (by decide)]
    exact (hoctet 15).symm
  · rw [wireBits_rest (m := 2) (n := 2) (k := 0) (by decide)]
    exact (wireBits_whole d 16 2).symm
  · rw [wireBits_first (m := 2) (n := 2) (by decide)]
    exact (wireBits_whole d 18 2).symm
  · rw [wireBits_rest (m := 2) (n := 2) (k := 0) (by decide), wireBits, getBits, Nat.pow_zero,
      Nat.div_one]
    have hlt : ntoh 2 (getLe d 20 2) / 2 ^ 13 % 2 ^ 3 = ntoh 2 (getLe d 20 2) / 2 ^ 13 :=
      Nat.mod_eq_of_lt (Nat.div_lt_of_lt_mul (ntoh_lt 2 _))
    exact hflags.trans hlt.symm
  · rw [wireBits_rest (m := 2) (n := 2) (k := 3) (by decide), wireBits, getBits]
    have hmod : ntoh 2 (getLe d 20 2) / 1 % 2 ^ 13 = ntoh 2 (getLe d 20 2) % 2 ^ 13 % 2 ^ 13 := by
      rw [Nat.div_one, Nat.mod_mod]
    exact (congrArg (· % 2 ^ 13) hoffs).trans hmod.symm
  · rw [wireBits_first (m := 1) (n := 3) (by decide)]
    exact (hoctet 22).symm
  · rw [wireBits_rest (m := 1) (n := 3) (k := 0) (by decide),
      wireBits_first (m := 1) (n := 2) (by decide)]
    exact (hoctet 23).symm
  · rw [wireBits_rest (m := 2) (n := 2) (k := 0) (by decide)]
    exact (wireBits_whole d 24 2).symm
  · exact (wireBits_whole d 26 4).symm
  · exact (wireBits_whole d 30 4).symm

end

/-! ### The codec of DNS -/

section

variable {d : ℕ → UInt8} {k n v w x y f : ℕ}

/-- The flags of a structure, put together with `|`. -/
theorem or_flags (w : ℕ) :
    getBits 0 1 w <<< 15 ||| getBits 1 4 w <<< 11 ||| getBits 5 1 w <<< 10 ||| getBits 6 1 w <<< 9
      ||| getBits 7 1 w <<< 8 ||| getBits 8 1 w <<< 7 ||| getBits 9 1 w <<< 6
        ||| getBits 10 1 w <<< 5
      ||| getBits 11 1 w <<< 4 ||| getBits 12 4 w = wireFlags w := by
  have h := fun k n => @getBits_lt k n w
  have h1 := h 1 4
  have h5 := h 5 1
  have h6 := h 6 1
  have h7 := h 7 1
  have h8 := h 8 1
  have h9 := h 9 1
  have h10 := h 10 1
  have h11 := h 11 1
  have h12 := h 12 4
  simp only [Nat.shiftLeft_eq]
  rw [or_eq_add (k := 15) (y := getBits 1 4 w * 2 ^ 11),
    or_eq_add (k := 11) (y := getBits 5 1 w * 2 ^ 10),
      or_eq_add (k := 10) (y := getBits 6 1 w * 2 ^ 9),
      or_eq_add (k := 9) (y := getBits 7 1 w * 2 ^ 8),
    or_eq_add (k := 8) (y := getBits 8 1 w * 2 ^ 7),
    or_eq_add (k := 7) (y := getBits 9 1 w * 2 ^ 6),
    or_eq_add (k := 6) (y := getBits 10 1 w * 2 ^ 5),
    or_eq_add (k := 5) (y := getBits 11 1 w * 2 ^ 4), or_eq_add (k := 4) (y := getBits 12 4 w)]
  · rw [getBits, Nat.pow_zero, Nat.div_one]
    simp only [wireFlags, getBits, pack]
    ring
  all_goals omega

/-- The bits below those that are set stay. -/
theorem setBits_low (hk : k ≤ 16) :
    setBits k n v (w % 256 ^ 2) % 2 ^ (k + n) = w % 2 ^ k + v % 2 ^ n * 2 ^ k := by
  have hdvd : 2 ^ k ∣ 256 ^ 2 := Nat.pow_dvd_pow 2 hk
  obtain ⟨hlow, hhigh⟩ := @setBits_parts k n v (w % 256 ^ 2)
  rw [Nat.pow_add, Nat.mod_mul, hlow, hhigh, Nat.mul_comm (_ / _), Nat.mul_add_mod, Nat.mod_mod,
    Nat.mod_mod_of_dvd _ hdvd, Nat.mul_comm]

theorem setFlag_putLe :
    setFlag k n v (putLe d 2 2 w) = putLe d 2 2 (setBits k n v (w % 256 ^ 2)) := by
  rw [setFlag, getLe_putLe, putLe_putLe]

/-- The flags of a structure, set one after the other. -/
theorem setBits_flags (w f : ℕ) :
    setBits 12 4 (f % 2 ^ 4) (setBits 11 1 (f / 2 ^ 4 % 2) (setBits 10 1 (f / 2 ^ 5 % 2)
      (setBits 9 1 (f / 2 ^ 6 % 2) (setBits 8 1 (f / 2 ^ 7 % 2) (setBits 7 1 (f / 2 ^ 8 % 2)
      (setBits 6 1 (f / 2 ^ 9 % 2) (setBits 5 1 (f / 2 ^ 10 % 2) (setBits 1 4 (f / 2 ^ 11 % 2 ^ 4)
      (setBits 0 1 (f / 2 ^ 15 % 2)
        (w % 256 ^ 2) % 256 ^ 2) % 256 ^ 2) % 256 ^ 2) % 256 ^ 2) % 256 ^ 2)
      % 256 ^ 2) % 256 ^ 2) % 256 ^ 2) % 256 ^ 2) % 256 ^ 2 = hostFlags f := by
  have h := @setBits_low
  have h12 := fun v w => @h 12 4 v w (by decide)
  have h11 := fun v w => @h 11 1 v w (by decide)
  have h10 := fun v w => @h 10 1 v w (by decide)
  have h9 := fun v w => @h 9 1 v w (by decide)
  have h8 := fun v w => @h 8 1 v w (by decide)
  have h7 := fun v w => @h 7 1 v w (by decide)
  have h6 := fun v w => @h 6 1 v w (by decide)
  have h5 := fun v w => @h 5 1 v w (by decide)
  have h1 := fun v w => @h 1 4 v w (by decide)
  have h0 := fun v w => @h 0 1 v w (by decide)
  refine (h12 _ _).trans ?_
  rw [h11, h10, h9, h8, h7, h6, h5, h1, h0]
  simp only [hostFlags, pack, Nat.pow_zero, Nat.pow_one, Nat.mod_one, Nat.mod_mod, Nat.mul_one,
    Nat.zero_add]
  ring

theorem dns2buf_eq (d : ℕ → UInt8) : dns2buf d = convert dnsOut d :=
  congrArg (fun f => putLe (swapCounts d) 2 2 (ntoh 2 f)) (or_flags _)

theorem buf2dns_eq (d : ℕ → UInt8) : buf2dns d = convert dnsIn d := by
  have hbit : ∀ f k, (f &&& 1 <<< k) >>> k = f / 2 ^ k % 2 := fun f k => mask_shift f k 1
  have hop : ∀ f, (f &&& 0x7800) >>> 11 = f / 2 ^ 11 % 2 ^ 4 := fun f => mask_shift f 11 4
  have hcode : ∀ f, f &&& 0xF = f % 2 ^ 4 := fun f => Nat.and_two_pow_sub_one_eq_mod f 4
  have hself := (putLe_self (m := swapCounts d) (a := 2) (n := 2) rfl).symm
  show buf2dns d = putLe (swapCounts d) 2 2 (hostFlags (ntoh 2 (getLe (swapCounts d) 2 2)))
  simp only [buf2dns, hbit, hop, hcode]
  generalize getLe (swapCounts d) 2 2 = w at *
  rw [hself]
  simp only [setFlag_putLe, putLe_putLe]
  rw [← putLe_mod, setBits_flags]

theorem hostFlags_lt (f : ℕ) : hostFlags f < 256 ^ 2 := by
  unfold hostFlags
  exact (pack_lt _).trans_eq (by simp)

theorem wireFlags_lt (w : ℕ) : wireFlags w < 256 ^ 2 := by
  unfold wireFlags
  exact (pack_lt _).trans_eq (by simp)

/-- The flags of the structure, each from its bits on the wire. -/
theorem stretches_hostFlags (f : ℕ) : stretches (hostFlags f) 0 [1, 4, 1, 1, 1, 1, 1, 1, 1, 4] =
    [(1, f / 2 ^ 15 % 2 ^ 1), (4, f / 2 ^ 11 % 2 ^ 4), (1, f / 2 ^ 10 % 2 ^ 1),
      (1, f / 2 ^ 9 % 2 ^ 1), (1, f / 2 ^ 8 % 2 ^ 1), (1, f / 2 ^ 7 % 2 ^ 1),
      (1, f / 2 ^ 6 % 2 ^ 1), (1, f / 2 ^ 5 % 2 ^ 1), (1, f / 2 ^ 4 % 2 ^ 1),
      (4, f % 2 ^ 4)] := stretches_pack [] _

/-- The bits on the wire, each from its flag of the structure. -/
theorem stretches_wireFlags (w : ℕ) : stretches (wireFlags w) 0 [4, 1, 1, 1, 1, 1, 1, 1, 4, 1] =
    [(4, w / 2 ^ 12 % 2 ^ 4), (1, w / 2 ^ 11 % 2 ^ 1), (1, w / 2 ^ 10 % 2 ^ 1),
      (1, w / 2 ^ 9 % 2 ^ 1), (1, w / 2 ^ 8 % 2 ^ 1), (1, w / 2 ^ 7 % 2 ^ 1),
      (1, w / 2 ^ 6 % 2 ^ 1), (1, w / 2 ^ 5 % 2 ^ 1), (4, w / 2 ^ 1 % 2 ^ 4),
      (1, w % 2 ^ 1)] := stretches_pack [] _

theorem wireFlags_hostFlags {f : ℕ} (hf : f < 256 ^ 2) : wireFlags (hostFlags f) = f := by
  have h := stretches_hostFlags f
  have hself : pack (stretches f 0 [4, 1, 1, 1, 1, 1, 1, 1, 4, 1]) = f :=
    pack_stretches.trans ((congrArg (· % 2 ^ 16) (Nat.div_one f)).trans (Nat.mod_eq_of_lt hf))
  have hfields :
    ∀ w, wireFlags w = pack [(4, getBits 12 4 w), (1, getBits 11 1 w), (1, getBits 10 1 w),
      (1, getBits 9 1 w), (1, getBits 8 1 w), (1, getBits 7 1 w), (1, getBits 6 1 w),
        (1, getBits 5 1 w),
      (4, getBits 1 4 w), (1, getBits 0 1 w)] := fun w => by
    simp only [wireFlags, pack, getBits, Nat.mod_mod, Nat.pow_zero, Nat.div_one]
  simp only [stretches, List.cons.injEq, Prod.mk.injEq, true_and, and_true,
    Nat.reduceAdd] at h hself
  obtain ⟨h0, h1, h5, h6, h7, h8, h9, h10, h11, h12⟩ := h
  rw [hfields, h0, h1, h5, h6, h7, h8, h9, h10, h11, h12]
  rw [getBits, Nat.pow_zero, Nat.div_one] at hself
  exact hself

theorem hostFlags_wireFlags {w : ℕ} (hw : w < 256 ^ 2) : hostFlags (wireFlags w) = w := by
  have h := stretches_wireFlags w
  have hself : pack (stretches w 0 [1, 4, 1, 1, 1, 1, 1, 1, 1, 4]) = w :=
    pack_stretches.trans ((congrArg (· % 2 ^ 16) (Nat.div_one w)).trans (Nat.mod_eq_of_lt hw))
  have hfields :
    ∀ f, hostFlags f = pack [(1, getBits 15 1 f), (4, getBits 11 4 f), (1, getBits 10 1 f),
      (1, getBits 9 1 f), (1, getBits 8 1 f), (1, getBits 7 1 f), (1, getBits 6 1 f),
        (1, getBits 5 1 f),
      (1, getBits 4 1 f), (4, getBits 0 4 f)] := fun f => by
    simp only [hostFlags, pack, getBits, Nat.mod_mod, Nat.pow_zero, Nat.div_one]
  simp only [stretches, List.cons.injEq, Prod.mk.injEq, true_and, and_true,
    Nat.reduceAdd] at h hself
  obtain ⟨h0, h4, h5, h6, h7, h8, h9, h10, h11, h15⟩ := h
  rw [hfields, h0, h4, h5, h6, h7, h8, h9, h10, h11, h15]
  rw [getBits, Nat.pow_zero, Nat.div_one] at hself
  exact hself

theorem dnsIn_apart : dnsIn.Pairwise Conv.Apart := by decide

theorem dnsOut_apart : dnsOut.Pairwise Conv.Apart := by decide

theorem dnsOut_undoes : List.Forall₂ Conv.Undoes dnsOut dnsIn := by
  have hflags : ∀ v < 256 ^ 2, ntoh 2 (wireFlags (hostFlags (ntoh 2 v) % 256 ^ 2)) % 256 ^ 2 = v :=
    fun v hv => by
      rw [Nat.mod_eq_of_lt (hostFlags_lt _), wireFlags_hostFlags (ntoh_lt 2 v),
        ntoh_ntoh, Nat.mod_mod, Nat.mod_eq_of_lt hv]
  exact .cons (Undoes_swap _ _)
    (.cons (Undoes_swap _ _) (.cons (Undoes_swap _ _) (.cons (Undoes_swap _ _)
    (.cons (Undoes_swap _ _) (.cons ⟨rfl, rfl, hflags⟩ .nil)))))

theorem dnsIn_undoes : List.Forall₂ Conv.Undoes dnsIn dnsOut := by
  have hflags : ∀ v < 256 ^ 2, hostFlags (ntoh 2 (ntoh 2 (wireFlags v) % 256 ^ 2)) % 256 ^ 2 = v :=
    fun v hv => by
      rw [Nat.mod_eq_of_lt (ntoh_lt 2 _), ntoh_ntoh, Nat.mod_eq_of_lt (wireFlags_lt v),
        hostFlags_wireFlags hv, Nat.mod_eq_of_lt hv]
  exact .cons (Undoes_swap _ _)
    (.cons (Undoes_swap _ _) (.cons (Undoes_swap _ _) (.cons (Undoes_swap _ _)
    (.cons (Undoes_swap _ _) (.cons ⟨rfl, rfl, hflags⟩ .nil)))))

/-- A number of the header that is the other way round in the structure. -/
theorem getLe_dnsIn_swap {i n : ℕ} (h : swapConv i n ∈ dnsIn) :
    getLe (convert dnsIn d) i n = ntoh n (getLe d i n) := by
  rw [← Nat.mod_eq_of_lt (ntoh_lt n (getLe d i n))]
  exact getLe_convert dnsIn_apart h

/-- The flags in the structure. -/
theorem getLe_dnsIn_flags (d : ℕ → UInt8) :
    getLe (convert dnsIn d) 2 2 = hostFlags (ntoh 2 (getLe d 2 2)) := by
  have hmem : ⟨2, 2, fun w => hostFlags (ntoh 2 w)⟩ ∈ dnsIn := by simp [dnsIn]
  have h : getLe (convert dnsIn d) 2 2 = hostFlags (ntoh 2 (getLe d 2 2)) % 256 ^ 2 :=
    getLe_convert dnsIn_apart hmem
  rw [h, Nat.mod_eq_of_lt (hostFlags_lt _)]

/-- **Every field of the structure is what the message on the wire says.** -/
theorem load_dnsIn (d : ℕ → UInt8) : DnsHdr.load (convert dnsIn d) = DnsHdr.wire d := by
  have hswap : ∀ i, swapConv i 2 ∈ dnsIn → getLe (convert dnsIn d) i 2 = wireBits d i 2 0 16 :=
    fun i h => (getLe_dnsIn_swap h).trans (wireBits_whole d i 2).symm
  have h := stretches_hostFlags (ntoh 2 (getLe d 2 2))
  simp only [stretches, List.cons.injEq, Prod.mk.injEq, true_and, and_true, Nat.reduceAdd] at h
  obtain ⟨h0, h1, h5, h6, h7, h8, h9, h10, h11, h12⟩ := h
  unfold DnsHdr.load getFlag
  rw [hswap 0 (by simp [dnsIn]), hswap 4 (by simp [dnsIn]), hswap 6 (by simp [dnsIn]),
    hswap 8 (by simp [dnsIn]), hswap 10 (by simp [dnsIn]), getLe_dnsIn_flags, h0, h1,
    h5, h6, h7, h8,
      h9,
    h10, h11, h12]
  simp only [DnsHdr.wire, wireBits, Nat.reduceMul, Nat.reduceSub, Nat.pow_zero, Nat.div_one]

end

/-- **The codecs are inverse to each other and agree with the standards.** A header of IP or
DNS that comes from the wire gives a structure whose fields are the bits that the standard
assigns to them, and gives the same bytes again; a structure that goes to the wire comes back
with every field. -/
theorem header_codecs (s : Rx) :
    (∀ E, wp (do buf2ipv4; ipv42buf) (fun _ t => t.buf.data = s.buf.data) E s) ∧
    (∀ E, wp (do ipv42buf; buf2ipv4) (fun _ t => t.buf.data = s.buf.data) E s) ∧
    (∀ E, wp buf2ipv4 (fun _ t => Ipv4Hdr.load t.buf.data = Ipv4Hdr.wire s.buf.data) E s) ∧
    (∀ E, wp ipv42buf (fun _ t => Ipv4Hdr.wire t.buf.data = Ipv4Hdr.load s.buf.data) E s) ∧
    ∀ d, dns2buf (buf2dns d) = d ∧ buf2dns (dns2buf d) = d ∧
      DnsHdr.load (buf2dns d) = DnsHdr.wire d ∧ DnsHdr.wire (dns2buf d) = DnsHdr.load d := by
  have hs : s = s.at s.buf.data s.buf.reach := rfl
  have hip : ∀ d, convert ipOut (convert ipIn d) = d :=
    fun d => convert_undo ipIn_apart ipOut_undoes
  have hip' : ∀ d, convert ipIn (convert ipOut d) = d :=
    fun d => convert_undo ipOut_apart ipIn_undoes
  have hdns : ∀ d, convert dnsOut (convert dnsIn d) = d := fun d =>
    convert_undo dnsIn_apart dnsOut_undoes
  have hdns' : ∀ d, convert dnsIn (convert dnsOut d) = d := fun d =>
    convert_undo dnsOut_apart dnsIn_undoes
  refine ⟨fun E => ?_, fun E => ?_, fun E => ?_, fun E => ?_, fun d => ?_⟩
  · rw [hs, wp_bind, wp_buf2ipv4, wp_ipv42buf]
    exact hip _
  · rw [hs, wp_bind, wp_ipv42buf, wp_buf2ipv4]
    exact hip' _
  · rw [hs, wp_buf2ipv4]
    exact load_ipIn _
  · rw [hs, wp_ipv42buf]
    exact (load_ipIn _).symm.trans (congrArg Ipv4Hdr.load (hip' _))
  · rw [buf2dns_eq, buf2dns_eq, dns2buf_eq, dns2buf_eq]
    exact ⟨hdns d, hdns' d, load_dnsIn d,
      (load_dnsIn _).symm.trans (congrArg DnsHdr.load (hdns' d))⟩

end Cosiris.Codec
