import Cosiris.Lib.Prog
import Cosiris.Lib.Ring
import Mathlib.Algebra.Order.Group.Nat
import Mathlib.Algebra.Order.Ring.Int

/-!
# Buffered streams

`lib/file.c`: a stream is a buffer over a descriptor. `head` and `tail` are `int`s that run on
without end, the cell of a position is its remainder modulo `size`. An `int` that would pass 2³¹
is undefined in C and stops the run here, as does an access past the end of the buffer.

The descriptor is the bytes that `read` has not delivered yet and those that `write` was given.
`write` accepts all it is given; how many bytes a `read` delivers, of those asked for and still
there, is a parameter: `cut` is how many it would deliver, given how many are left. -/

namespace Cosiris.Stdio

open Function Prog

/-- The ways a program that uses a stream stops. -/
inductive Fault where
  /-- An access outside of `fp->buf`. -/
  | bounds
  /-- An `int` that overflows. -/
  | overflow
  /-- An access outside of the line of `getline`. -/
  | line
  /-- A loop that never ends. -/
  | loops
  deriving DecidableEq

/-- `FILE`, and the descriptor under it. -/
structure File where
  buf : ℕ → UInt8
  head : ℕ
  tail : ℕ
  size : ℕ
  flags : UInt32
  /-- What `read` has not delivered yet. -/
  unread : List UInt8
  /-- What `write` was given. -/
  written : List UInt8

/-- `BUF_SIZE`. -/
def bufSize : ℕ := 512

/-- `GETLINE_INIT_SIZE`. -/
def getlineInitSize : UInt32 := 16

/-- `F_RDONLY`. -/
def fRdonly : UInt32 := 1

/-- `F_WRONLY`. -/
def fWronly : UInt32 := 2

/-- `F_UNBUF`. -/
def fUnbuf : UInt32 := 8

/-- `F_EOF`. -/
def fEof : UInt32 := 16

/-- `F_ERR`. -/
def fErr : UInt32 := 32

/-- `O_RDONLY`. -/
def oRdonly : UInt32 := 0

/-- `EOF`. -/
def eof : ℤ := -1

/-- A flag of those in `mask` is set. -/
def File.has (fp : File) (mask : UInt32) : Bool := fp.flags &&& mask ≠ 0

/-- The size that `_alloc_buf` gives to the buffer. -/
def allocBuf (flags : UInt32) (size : ℕ) : ℕ := if flags &&& fUnbuf ≠ 0 ∧ 0 < size then 1 else size

/-- A stream just opened, over a descriptor with the bytes `content`. -/
def newFile (flags : UInt32) (content : List UInt8) : File :=
  ⟨fun _ => 0, 0, 0, allocBuf flags bufSize, flags, content, []⟩

/-- A `char` as an `int`. -/
def ofChar (b : UInt8) : ℤ := b.toBitVec.toInt

/-- An `int` as a `char`. -/
def toChar (c : ℤ) : UInt8 := ⟨BitVec.ofInt 8 c⟩

@[simp] theorem toChar_ofChar (b : UInt8) : toChar (ofChar b) = b := by
  unfold toChar ofChar
  rw [BitVec.ofInt_toInt]

/-- `fp->head += n`. -/
def addHead (n : ℕ) : Prog Fault File Unit := do
  let fp ← read
  if fp.head + n < 2 ^ 31 then modify fun fp => { fp with head := fp.head + n } else halt .overflow

/-- `fp->tail += n`. -/
def addTail (n : ℕ) : Prog Fault File Unit := do
  let fp ← read
  if fp.tail + n < 2 ^ 31 then modify fun fp => { fp with tail := fp.tail + n } else halt .overflow

/-- `fp->flags |= flag`. -/
def setFlag (flag : UInt32) : Prog Fault File Unit := modify fun fp =>
  { fp with flags := fp.flags ||| flag }

/-- `fp->buf[i]`. -/
def load (i : ℕ) : Prog Fault File UInt8 := do
  let fp ← read
  if i < fp.size then return fp.buf i else halt .bounds

/-- `fp->buf[i] = c`. -/
def store (i : ℕ) (c : UInt8) : Prog Fault File Unit := do
  let fp ← read
  if i < fp.size then modify fun fp => { fp with buf := update fp.buf i c } else halt .bounds

/-- `IOB_EMPTY`. -/
def File.empty (fp : File) : Prop := fp.tail = fp.head

/-- `IOB_FULL`. -/
def File.full (fp : File) : Prop := fp.size ≤ fp.head - fp.tail

instance (fp : File) : Decidable fp.empty := inferInstanceAs (Decidable (fp.tail = fp.head))

instance (fp : File) : Decidable fp.full :=
  inferInstanceAs (Decidable (fp.size ≤ fp.head - fp.tail))

/-! ### Output -/

/-- `write(fp->fd, fp->buf + pos, n)`. -/
def write (pos n : ℕ) : Prog Fault File ℤ := do
  let fp ← read
  if pos + n ≤ fp.size then
    modify fun fp =>
      { fp with written := fp.written ++ (List.range n).map fun i => fp.buf (pos + i) }
    return n
  else halt .bounds

/-- `_flush_buf`. -/
def flushBuf : Prog Fault File ℤ := do
  let fp ← read
  if fp.has (fEof ||| fErr ||| fRdonly) then return eof
  let pending := fp.head - fp.tail
  let size := if pending ≠ 0 ∧ fp.has fUnbuf then 1 else pending
  let numBytes ← write (fp.tail % fp.size) size
  if numBytes ≤ 0 then
    setFlag fErr
    return eof
  addTail numBytes.toNat
  return numBytes

/-- `fp->buf[fp->head++ % fp->size] = c`. -/
def putByte (c : UInt8) : Prog Fault File Unit := do
  let fp ← read
  addHead 1
  store (fp.head % fp.size) c

/-- `fputc`. -/
def fputc (c : ℤ) : Prog Fault File ℤ := do
  putByte (toChar c)
  let fp ← read
  if fp.full ∨ fp.has fUnbuf then
    let n ← flushBuf
    if n < 0 then return eof else return c
  else return c

/-- `fputs`, of the bytes from `s` on. -/
def fputs : List UInt8 → Prog Fault File ℤ
  | [] => pure 0
  | c :: s =>
    if c = 0 then pure 0
    else do
      let r ← fputc (ofChar c)
      if r < 0 then return eof else fputs s

/-- `if (IOB_FULL(fp)) _flush_buf(fp)`. -/
def flushFull : Prog Fault File ℤ := do
  let fp ← read
  if fp.full then flushBuf else return 0

/-- The loop of `fwrite`, with `i` bytes and `j` members done. -/
def fwriteFrom (size : ℕ) : ℕ → ℕ → List UInt8 → Prog Fault File ℕ
  | _, j, [] => pure j
  | i, j, c :: p => do
    putByte c
    let n ← flushFull
    if n < 0 then return j
    else fwriteFrom size (i + 1) (if (i + 1) % size = 0 then j + 1 else j) p

/-- `fwrite`, of the bytes from `p` on. -/
def fwrite (p : List UInt8) (size nmemb : ℕ) : Prog Fault File ℕ :=
  fwriteFrom size 0 0 (p.take (nmemb * size % 2 ^ 32))

/-- `fflush`, of one stream. -/
def fflush : Prog Fault File ℤ := do
  let fp ← read
  if fp.has oRdonly then
    modify fun fp => { fp with tail := fp.head }
    return 0
  let n ← flushBuf
  if n < 0 then return eof else return 0

/-! ### Input -/

section

variable (cut : ℕ → ℕ)

/-- How many bytes a `read` of `n` delivers when `left` are there. -/
def delivers (n left : ℕ) : ℕ := min (max 1 (cut left)) (min n left)

/-- `read(fp->fd, fp->buf + pos, n)`. -/
def readFd (pos n : ℕ) : Prog Fault File ℤ := do
  let fp ← read
  let k := delivers cut n fp.unread.length
  if pos + k ≤ fp.size then
    modify fun fp =>
      { fp with
        buf := fun i => if pos ≤ i ∧ i < pos + k then fp.unread.getD (i - pos) 0 else fp.buf i
        unread := fp.unread.drop k }
    return k
  else halt .bounds

/-- `_fill_buf`. -/
def fillBuf : Prog Fault File ℤ := do
  let fp ← read
  if fp.has (fEof ||| fErr ||| fWronly) then return eof
  let relPos := fp.head % fp.size
  let numBytes ← readFd cut relPos (fp.size - relPos)
  if numBytes ≤ 0 then
    if numBytes = 0 then setFlag fEof else setFlag fErr
    return eof
  addHead numBytes.toNat
  return numBytes

/-- `if (IOB_EMPTY(fp)) _fill_buf(fp)`. -/
def fillEmpty : Prog Fault File ℤ := do
  let fp ← read
  if fp.empty then fillBuf cut else return 0

/-- `fp->buf[fp->tail++ % fp->size]`. -/
def getByte : Prog Fault File UInt8 := do
  let fp ← read
  addTail 1
  load (fp.tail % fp.size)

/-- `fgetc`. -/
def fgetc : Prog Fault File ℤ := do
  let n ← fillEmpty cut
  if n < 0 then return eof
  let c ← getByte
  return ofChar c

/-- `'\n'`. -/
def newline : UInt8 := 10

/-- The loop of `fgets`: `s` is what it has stored, and `n` how many bytes more there is room for.
-/
def fgetsFrom : ℕ → List UInt8 → Prog Fault File (List UInt8)
  | n, s => do
    let c ← fgetc cut
    if toChar c = toChar eof then return s
    match n with
    | 0 => return s
    | n + 1 =>
      let s := s ++ [toChar c]
      if toChar c = newline then return s else fgetsFrom n s

/-- `fgets`: the string it has stored, or `NULL`. -/
def fgets (size : ℕ) : Prog Fault File (Option (List UInt8)) := do
  let s ← fgetsFrom cut (size - 1) []
  if s.length = 0 then return none else return some s

/-- What `getline` is given and leaves: `*n`, if `*lineptr` is not `NULL`. -/
structure Line where
  isNull : Bool
  n : UInt32

/-- The room that `getline` makes for the next byte. -/
def Line.grow (l : Line) (i : ℕ) : Line :=
  if l.isNull ∨
    l.n ≤ .ofNat (i + 1) then ⟨false, if l.n = 0 then getlineInitSize else l.n * 2⟩ else l

/-- `s[i]` is in the line. -/
def Line.check (l : Line) (i : ℕ) : Prog Fault File Unit :=
  if l.isNull = false ∧ i < l.n.toNat then pure () else halt .line

/-- The loop of `getline`, which stores `s`; at most `fuel` rounds. -/
def getlineFrom : ℕ → Line → List UInt8 → Prog Fault File (Line × List UInt8)
  | 0, _, _ => halt .loops
  | fuel + 1, l, s => do
    let l := l.grow s.length
    let c ← fgetc cut
    if toChar c = toChar eof then return (l, s)
    l.check s.length
    let s := s ++ [toChar c]
    if toChar c = newline then return (l, s) else getlineFrom fuel l s

/-- `getline`: what it returns, the line as it is then and the string stored there. A byte of the
stream is taken in each round but the last, so that there are no more rounds than bytes. -/
def getline (l : Line) : Prog Fault File (ℤ × Line × List UInt8) := do
  let fp ← read
  let (l, s) ← getlineFrom cut (fp.head - fp.tail + fp.unread.length + 1) l []
  l.check s.length
  let fp ← read
  if fp.has (fEof ||| fErr) then return (eof, l, s) else return (s.length, l, s)

/-- The loop of `fread`: `n` bytes are still asked for, the bytes `p` stored and `j` members done.
-/
def freadFrom (size : ℕ) : ℕ → ℕ → List UInt8 → Prog Fault File (ℕ × List UInt8)
  | 0, j, p => pure (j, p)
  | n + 1, j, p => do
    let m ← fillEmpty cut
    if m < 0 then return (j, p)
    let c ← getByte
    let p := p ++ [c]
    freadFrom size n (if p.length % size = 0 then j + 1 else j) p

/-- `fread`: what it returns, and the bytes it has stored. -/
def fread (size nmemb : ℕ) : Prog Fault File (ℕ × List UInt8) :=
  freadFrom cut size (nmemb * size % 2 ^ 32) 0 []

end

end Cosiris.Stdio
