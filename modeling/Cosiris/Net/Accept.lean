import Cosiris.Net.Udp

/-!
# Which packets are accepted

`ip_process` takes the length of the header that it checks from `iphlen`, which keeps three of the
four bits of `ihl`. From 32 bytes on the checksum is taken over 32 bytes less than the header has,
and over none for a header of 32 bytes: such a packet is refused although its checksum is right,
unless the bytes that are left happen to sum up as well (`ip_acceptance_iff`). -/

namespace Cosiris.Net

open Prog Ones

/-- The sum of a byte string that holds its own checksum: all bits are set in it. -/
def Verifies (l : List UInt8) : Prop := reduce (wordsBe l) = 65535

instance (l : List UInt8) : Decidable (Verifies l) := inferInstanceAs (Decidable (_ = _))

/-- The length of the IP header that a frame states, in words of four bytes. -/
def ihl (d : ℕ → UInt8) : ℕ := getLe d 14 1 % 16

/-- The first `n` bytes of the IP header. -/
def ipHeader (d : ℕ → UInt8) (n : ℕ) : List UInt8 := getBytes d 14 n

/-- What a packet has to meet for an interface besides its checksum. -/
structure Wanted (netif : Netif) (d : ℕ → UInt8) : Prop where
  version : getLe d 14 1 / 16 = 4
  ihl : 5 ≤ ihl d
  ttl : getLe d 22 1 ≠ 0
  daddr : ntoh 4 (getLe d 30 4) = 0xFFFFFFFF ∨ ntoh 4 (getLe d 30 4) ∈ netif.ips

section

variable {d : ℕ → UInt8} {i n sum fuel : ℕ}

/-- The loop that adds the carries in ends with the sum reduced. -/
theorem foldCarry_eq (h : sum ≤ fuel) : foldCarry fuel sum = reduce sum := by
  induction fuel generalizing sum with
  | zero =>
    have hsum : sum = 0 := by omega
    subst hsum
    rfl
  | succ fuel ih =>
    unfold foldCarry
    by_cases hs : sum / 2 ^ 16 = 0
    · rw [if_pos hs, reduce_of_lt (by omega)]
    · rw [if_neg hs, ih (by omega), ← reduce_foldOnce sum, foldOnce]

theorem sumOf_eq (h : sum + wordsLe (getBytes d i n) < 2 ^ 32) :
    sumOf d n i sum = sum + wordsLe (getBytes d i n) := by
  induction n using Nat.twoStepInduction generalizing i sum with
  | zero => rfl
  | one => exact Nat.mod_eq_of_lt h
  | more n ih _ =>
    rw [getBytes_two, wordsLe, ← getLe_two] at h ⊢
    rw [sumOf, Nat.mod_eq_of_lt (by omega), ih (by omega), Nat.add_assoc]

/-- **`ip_csum`** is the complement of the sum of the words, as the machine reads them. -/
theorem csumOf_eq (hn : n < 2 ^ 16) : csumOf d i n = 65535 - reduce (wordsLe (getBytes d i n)) := by
  have hle := wordsLe_le (getBytes d i n)
  rw [length_getBytes] at hle
  have hlt := reduce_lt (wordsLe (getBytes d i n))
  rw [csumOf, foldCarry_eq le_rfl, sumOf_eq (by omega), Nat.zero_add, not16, Nat.mod_eq_of_lt hlt]
  omega

/-- The checksum is 0 for the bytes that verify. -/
theorem csumOf_eq_zero_iff (hn : n < 2 ^ 16) : csumOf d i n = 0 ↔ Verifies (getBytes d i n) := by
  have hlt := reduce_lt (wordsBe (getBytes d i n))
  have hswap := swap16_lt hlt
  rw [csumOf_eq hn, reduce_wordsLe, Verifies]
  unfold swap16 at hswap ⊢
  omega

end

/-! ### `ip_process` -/

theorem ipAccepted_iff {netif : Netif} {d : ℕ → UInt8} :
    IpAccepted netif d ↔ Wanted netif d ∧ Verifies (ipHeader d (ihl d % 8 * 4)) := by
  have h8 : ihl d % 8 = getLe d 14 1 % 8 := Nat.mod_mod_of_dvd _ (by decide)
  rw [ipHeader, ← csumOf_eq_zero_iff (by omega), h8]
  exact ⟨fun ⟨h4, h5, httl, hsum, hip⟩ => ⟨⟨h4, h5, httl, hip⟩, hsum⟩,
    fun ⟨⟨h4, h5, httl, hip⟩, hsum⟩ => ⟨h4, h5, httl, hsum, hip⟩⟩

end Cosiris.Net
