import Cosiris.Lib.Ring

/-!
# The pipe buffer

`struct vfs_pipe` and the two loops of `pipe.c` that move bytes through it: the
`for` loop of `pipe_read` and the `for` loop of `pipe_write`, each as it runs
while `pipe->lock` is held. Both are shown to work on the queue the ring buffer
holds: a read takes a prefix of it, a write appends to it.
-/

namespace Cosiris.Pipe

open Cosiris.Ring

/-- `PIPE_BUFFER_SIZE`. -/
def pipeBufferSize : UInt32 := 1024

/-- `struct vfs_pipe`, but for its lock. -/
structure VfsPipe where
  /-- The cells; `size` of them are used. -/
  buffer : ℕ → UInt8
  /-- The number of cells. -/
  size : UInt32
  /-- How many descriptors are open on the read end. -/
  readers : UInt32
  /-- How many descriptors are open on the write end. -/
  writers : UInt32
  /-- The free-running read position. -/
  readPos : UInt32
  /-- The free-running write position. -/
  writePos : UInt32

/-- The structure `pipe_new` makes, with both ends opened: `calloc` zeroes it, and
`malloc` leaves the cells `buf` as they come. -/
def pipeNew (buf : ℕ → UInt8) (readers writers : UInt32) : VfsPipe :=
  ⟨buf, pipeBufferSize, readers, writers, 0, 0⟩

/-- The `for` loop of `pipe_read`: at most `n` bytes, until the positions meet. -/
def readLoop : ℕ → VfsPipe → List UInt8 × VfsPipe
  | 0, p => ([], p)
  | n + 1, p =>
    if p.readPos = p.writePos then ([], p)
    else
      let c := p.buffer (p.readPos % p.size).toNat
      let r := readLoop n { p with readPos := p.readPos + 1 }
      (c :: r.1, r.2)

/-- The `for` loop of `pipe_write`, until the bytes are all written or the buffer is
full: what is left to write, and the pipe. -/
def writeLoop : List UInt8 → VfsPipe → List UInt8 × VfsPipe
  | [], p => ([], p)
  | c :: cs, p =>
    if p.writePos = p.readPos + p.size then (c :: cs, p)
    else
      writeLoop cs { p with buffer := Function.update p.buffer (p.writePos % p.size).toNat c,
                            writePos := p.writePos + 1 }

/-- The bytes waiting in the pipe. -/
def VfsPipe.queue (p : VfsPipe) : List UInt8 := contents p.buffer p.size.toNat p.readPos p.writePos

/-- `write_pos - read_pos`, as the 32-bit subtraction gives it. -/
def VfsPipe.used (p : VfsPipe) : ℕ := Ring.used p.readPos p.writePos

/-- The pipe has `PIPE_BUFFER_SIZE` cells and no more bytes than that. -/
structure VfsPipe.Ok (p : VfsPipe) : Prop where
  size : p.size = pipeBufferSize
  used : p.used ≤ p.size.toNat

theorem toNat_pipeBufferSize : pipeBufferSize.toNat = 1024 := rfl

theorem VfsPipe.Ok.dvd {p : VfsPipe} (h : p.Ok) : p.size.toNat ∣ 2 ^ 32 := by
  rw [h.size, toNat_pipeBufferSize]
  decide

theorem VfsPipe.Ok.size_pos {p : VfsPipe} (h : p.Ok) : 0 < p.size.toNat := by
  rw [h.size, toNat_pipeBufferSize]
  decide

theorem pipeNew_ok (buf : ℕ → UInt8) (readers writers : UInt32) :
    (pipeNew buf readers writers).Ok :=
  ⟨rfl, by simp [VfsPipe.used, pipeNew]⟩

/-- A byte written into a pipe that is not full. -/
def VfsPipe.put (p : VfsPipe) (c : UInt8) : VfsPipe :=
  { p with buffer := Function.update p.buffer (p.writePos % p.size).toNat c,
           writePos := p.writePos + 1 }

theorem VfsPipe.Ok.put {p : VfsPipe} (h : p.Ok) (c : UInt8) (hf : p.writePos ≠ p.readPos + p.size) :
    (p.put c).Ok ∧ (p.put c).queue = p.queue ++ [c] := by
  have hne : Ring.used p.readPos p.writePos ≠ p.size.toNat := fun e =>
    hf ((used_eq_size_iff _ _ _).mp e)
  have hle : Ring.used p.readPos p.writePos ≤ p.size.toNat := h.used
  have hlt := p.size.toNat_lt
  have hroom : Ring.used p.readPos p.writePos < p.size.toNat := by omega
  refine ⟨⟨h.size, ?_⟩, ?_⟩
  · show Ring.used p.readPos (p.writePos + 1) ≤ p.size.toNat
    rw [used_succ_right (by omega)]
    omega
  · show contents (Function.update p.buffer (p.writePos % p.size).toNat c) _ _ _ = _
    rw [UInt32.toNat_mod]
    exact contents_push h.dvd p.buffer c hroom hlt

/-- A byte taken from a pipe that is not empty. -/
def VfsPipe.take (p : VfsPipe) : VfsPipe := { p with readPos := p.readPos + 1 }

theorem VfsPipe.Ok.take {p : VfsPipe} (h : p.Ok) (he : p.readPos ≠ p.writePos) :
    p.take.Ok ∧ p.queue = p.buffer (p.readPos % p.size).toNat :: p.take.queue := by
  have hpos : 0 < Ring.used p.readPos p.writePos :=
    Nat.pos_of_ne_zero fun e => he ((used_eq_zero_iff _ _).mp e)
  refine ⟨⟨h.size, ?_⟩, ?_⟩
  · have hs := used_succ_left hpos
    have hle : Ring.used p.readPos p.writePos ≤ p.size.toNat := h.used
    show Ring.used (p.readPos + 1) p.writePos ≤ p.size.toNat
    omega
  · rw [UInt32.toNat_mod]
    exact contents_pop h.dvd p.buffer hpos

/-- **What a read does**: the bytes it returns were the front of the queue. -/
theorem readLoop_spec (n : ℕ) {p : VfsPipe} (h : p.Ok) :
    (readLoop n p).2.Ok ∧ p.queue = (readLoop n p).1 ++ (readLoop n p).2.queue := by
  induction n generalizing p with
  | zero => exact ⟨h, rfl⟩
  | succ n ih =>
    unfold readLoop
    split_ifs with he
    · exact ⟨h, rfl⟩
    · obtain ⟨hok, hq⟩ := h.take he
      obtain ⟨hok', hq'⟩ := ih hok
      refine ⟨hok', ?_⟩
      rw [hq, hq']
      rfl

/-- **What a write does**: the bytes it enqueues go to the back of the queue, in order,
and what is left to write is the rest. -/
theorem writeLoop_spec (cs : List UInt8) {p : VfsPipe} (h : p.Ok) :
    ∃ done, cs = done ++ (writeLoop cs p).1 ∧ (writeLoop cs p).2.Ok ∧
      (writeLoop cs p).2.queue = p.queue ++ done := by
  induction cs generalizing p with
  | nil => exact ⟨[], rfl, h, by simp [writeLoop]⟩
  | cons c cs ih =>
    unfold writeLoop
    split_ifs with hf
    · exact ⟨[], rfl, h, by simp⟩
    · obtain ⟨hok, hq⟩ := h.put c hf
      obtain ⟨done, hcs, hok', hq'⟩ := ih hok
      refine ⟨c :: done, ?_, hok', ?_⟩
      · rw [List.cons_append]
        exact congrArg (c :: ·) hcs
      · exact hq'.trans (by rw [hq, List.append_assoc]; rfl)

/-- The counts of the ends are not touched by the loops. -/
theorem readLoop_counts (n : ℕ) (p : VfsPipe) :
    (readLoop n p).2.readers = p.readers ∧ (readLoop n p).2.writers = p.writers := by
  induction n generalizing p with
  | zero => exact ⟨rfl, rfl⟩
  | succ n ih =>
    unfold readLoop
    split_ifs
    · exact ⟨rfl, rfl⟩
    · exact ih _

theorem writeLoop_counts (cs : List UInt8) (p : VfsPipe) :
    (writeLoop cs p).2.readers = p.readers ∧ (writeLoop cs p).2.writers = p.writers := by
  induction cs generalizing p with
  | nil => exact ⟨rfl, rfl⟩
  | cons c cs ih =>
    unfold writeLoop
    split_ifs
    · exact ⟨rfl, rfl⟩
    · exact ih _

end Cosiris.Pipe
