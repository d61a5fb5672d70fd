import Cosiris.Lib.Fields
import Cosiris.Net.Bounds

/-!
# The DNS client

`dns.c`. A message lies in memory from index 0 on, its header in the first 12 bytes.
The second word of the header is one of bit-fields, which the compiler lays out from the
least significant bit on. A run stops at the first access outside the message that was
received or outside the buffer that is written.
-/

namespace Cosiris.Dns

open Net Prog

/-! ### The header -/

/-- A bit-field of the second word of `struct dns_hdr`: the `n` bits from bit `k` on. -/
def getFlag (k n : ℕ) (d : ℕ → UInt8) : ℕ := getBits k n (getLe d 2 2)

/-- Set a bit-field of the second word. -/
def setFlag (k n v : ℕ) (d : ℕ → UInt8) : ℕ → UInt8 := putLe d 2 2 (setBits k n v (getLe d 2 2))

/-- The numbers of the header that are the other way round in the two formats. -/
def swapCounts (d : ℕ → UInt8) : ℕ → UInt8 :=
  swapAt 2 10 (swapAt 2 8 (swapAt 2 6 (swapAt 2 4 (swapAt 2 0 d))))

/-- `dns2buf`. -/
def dns2buf (d : ℕ → UInt8) : ℕ → UInt8 :=
  let d := swapCounts d
  let flags := getFlag 0 1 d <<< 15 ||| getFlag 1 4 d <<< 11 ||| getFlag 5 1 d <<< 10
    ||| getFlag 6 1 d <<< 9 ||| getFlag 7 1 d <<< 8 ||| getFlag 8 1 d <<< 7 ||| getFlag 9 1 d <<< 6
    ||| getFlag 10 1 d <<< 5 ||| getFlag 11 1 d <<< 4 ||| getFlag 12 4 d
  putLe d 2 2 (ntoh 2 flags)

/-- `buf2dns`. -/
def buf2dns (d : ℕ → UInt8) : ℕ → UInt8 :=
  let d := swapCounts d
  let flags := ntoh 2 (getLe d 2 2)
  let d := setFlag 0 1 ((flags &&& 1 <<< 15) >>> 15) d
  let d := setFlag 1 4 ((flags &&& 0x7800) >>> 11) d
  let d := setFlag 5 1 ((flags &&& 1 <<< 10) >>> 10) d
  let d := setFlag 6 1 ((flags &&& 1 <<< 9) >>> 9) d
  let d := setFlag 7 1 ((flags &&& 1 <<< 8) >>> 8) d
  let d := setFlag 8 1 ((flags &&& 1 <<< 7) >>> 7) d
  let d := setFlag 9 1 ((flags &&& 1 <<< 6) >>> 6) d
  let d := setFlag 10 1 ((flags &&& 1 <<< 5) >>> 5) d
  let d := setFlag 11 1 ((flags &&& 1 <<< 4) >>> 4) d
  setFlag 12 4 (flags &&& 0xF) d

/-! ### Names -/

/-- Why a run stops: a read outside the message, a write outside a buffer, or no end. -/
inductive Stop
  | read
  | write
  | endless
  deriving DecidableEq

/-- The sizes of which `malloc` and `realloc` give a block. None is as large as half of the address
space. -/
structure Heap where
  gives : ℕ → Bool
  small : ∀ n, gives n → n < 2 ^ 31

/-- A message, and the number of bytes that were received. -/
structure Msg where
  data : ℕ → UInt8
  len : ℕ

/-- Write the byte at index `i` of a buffer of `cap` bytes. -/
def store (cap i : ℕ) (b : UInt8) (m : ℕ → UInt8) : Except Stop (ℕ → UInt8) :=
  if i < cap then .ok (Function.update m i b) else .error .write

/-- The loop of `host2dns_name`, from the rest of the host on. The buffer has `cap` bytes and is
written at index `p` next; the label so far has `i` characters. Gives the index for the last byte
and the size that is left. -/
def host2dnsLoop (cap : ℕ) :
  List UInt8 → ℕ → ℕ → ℕ → (ℕ → UInt8) → Except Stop (ℕ × ℕ × (ℕ → UInt8))
  | [], p, i, size, m => do
    if size ≤ 2 then return (p, size, m)
    let m ← store cap (p - (i + 1)) (.ofNat i) m
    return (p, size, m)
  | c :: host, p, i, size, m => do
    if size ≤ 2 then return (p, size, m)
    if c = 46 then
      let m ← store cap (p - (i + 1)) (.ofNat i) m
      host2dnsLoop cap host (p + 1) 0 (size - 1) m
    else
      let m ← store cap p c m
      host2dnsLoop cap host (p + 1) (i + 1) (size - 1) m

/-- `host2dns_name`, for a host without the final NUL and a buffer of `size` bytes. `none` stands
for -1. -/
def host2dnsName (host : List UInt8) (m : ℕ → UInt8) (size : ℕ) :
    Except Stop (Option ℕ × (ℕ → UInt8)) := do
  if size ≤ host.length + 2 then return (none, m)
  let (p, left, m) ← host2dnsLoop size host 1 0 size m
  let m ← store size p 0 m
  return (some (left - 2), m)

/-- The byte at index `s` of the message. -/
def Msg.rd (m : Msg) (s : ℤ) : Except Stop UInt8 :=
  if 0 ≤ s ∧ s < m.len then .ok (m.data s.toNat) else .error .read

/-- `buf[i++]`, in a buffer of `size` bytes. -/
def push (size : ℕ) (c : UInt8) (buf : List UInt8) : Except Stop (List UInt8) :=
  if buf.length < size then .ok (buf ++ [c]) else .error .write

/-- The dot after a label of `n` bytes. -/
def pushDot (size : ℕ) (n : UInt8) (buf : List UInt8) : Except Stop (List UInt8) :=
  if 0 < n then push size 46 buf else .ok buf

/-- The copy of at most `k` bytes of a label into a buffer of `size` bytes. -/
def copyLabel (m : Msg) (size : ℕ) : ℕ → ℤ → List UInt8 → Except Stop (ℤ × List UInt8)
  | 0, s, buf => .ok (s, buf)
  | k + 1, s, buf => do
    if buf.length < size then
      let c ← m.rd s
      copyLabel m size k (s + 1) (buf ++ [c])
    else return (s, buf)

/-- The loop of `dns2host_name`, with the final `buf[i] = 0`, for a number of iterations. The buffer
has `size` bytes, of which those of `buf` are written. A byte of the message is signed where it is
an offset. -/
def dns2hostLoop (h : Heap) (m : Msg) :
    ℕ → ℤ → UInt8 → List UInt8 → ℕ → Except Stop (Option (List UInt8))
  | 0, _, _, _, _ => .error .endless
  | fuel + 1, s, n, buf, size => do
    let c ← m.rd s
    if c ≠ 0 ∧ s < m.len then
      let buf ← pushDot size n buf
      if c = 0xc0 then
        let o ← m.rd (s + 1)
        dns2hostLoop h m fuel o.toInt8.toInt 0 buf size
      else if (c.toNat : ℤ) ≥ size - buf.length - 1 then
        if h.gives (size * 2) then
          let (s, buf) ← copyLabel m (size * 2) c.toNat (s + 1) buf
          dns2hostLoop h m fuel s c buf (size * 2)
        else return none
      else
        let (s, buf) ← copyLabel m size c.toNat (s + 1) buf
        dns2hostLoop h m fuel s c buf size
    else
      let _ ← push size 0 buf
      return some buf

/-- `dns2host_name`. The result is what the buffer holds before the final NUL. -/
def dns2hostName (h : Heap) (m : Msg) (fuel : ℕ) (s : ℤ) : Except Stop (Option (List UInt8)) :=
  if h.gives 32 then dns2hostLoop h m fuel s 0 [] 32 else .ok none

end Cosiris.Dns
