import Cosiris.Lib.Runs
import Cosiris.Pipe.Buffer

/-!
# Pipe streams

`pipe_read` and `pipe_write` of any number of processes on one pipe. The atomic
steps are the stretches of code between taking and releasing `pipe->lock`. A
read takes its bytes in one such stretch; a write that fills the buffer
releases the lock in the middle of its loop, so that other reads and writes
run inside it. Whatever the interleaving, and however often the positions wrap
at `2³²`, the bytes delivered so far are a prefix of the bytes enqueued so far.
-/

namespace Cosiris.Pipe

variable {ι : Type*}

/-- Where a process is in its use of the pipe. -/
inductive Call where
  /-- In neither function, having returned `n` from the last one. -/
  | returned (n : ℕ)
  /-- In `pipe_read`, about to take the lock. -/
  | read (size : UInt32)
  /-- In `pipe_write` of `buf`, about to take the lock, with `rest` still to write. -/
  | write (buf rest : List UInt8)
  deriving DecidableEq

/-- `pipe_read` from a `spin_lock` to the next `spin_unlock`: where the process is then,
the bytes it has copied to its caller, and the pipe. An empty pipe with writers
sends the process to sleep, to come back to the lock. -/
def readSection (size : UInt32) (p : VfsPipe) : Call × List UInt8 × VfsPipe :=
  if p.readPos = p.writePos ∧ 0 < p.writers then (.read size, [], p)
  else
    let r := readLoop size.toNat p
    (.returned r.1.length, r.1, r.2)

/-- `pipe_write` from a `spin_lock` to the next `spin_unlock`: where the process is then,
the bytes it has enqueued, and the pipe. A full pipe without readers makes it
return `0`; with readers it sleeps and comes back to the lock. -/
def writeSection (buf rest : List UInt8) (p : VfsPipe) : Call × List UInt8 × VfsPipe :=
  let w := writeLoop rest p
  let call :=
    if w.1 = [] then .returned buf.length
    else if w.2.readers = 0 then .returned 0
    else .write buf w.1
  (call, rest.take (rest.length - w.1.length), w.2)

/-- A pipe and the processes that use it, with all that went in and came out. -/
structure Stream (ι : Type*) where
  /-- The pipe. -/
  pipe : VfsPipe
  /-- Where each process is. -/
  call : ι → Call
  /-- The bytes enqueued, in lock order. -/
  enqueued : List UInt8
  /-- The bytes copied to readers, in lock order. -/
  delivered : List UInt8

/-- A new pipe, with no process in either function. -/
def Stream.start (ι : Type*) (buf : ℕ → UInt8) (readers writers : UInt32) : Stream ι :=
  ⟨pipeNew buf readers writers, fun _ => .returned 0, [], []⟩

/-- What was enqueued is what was delivered and then what waits in the buffer. -/
structure Stream.Inv (s : Stream ι) : Prop where
  ok : s.pipe.Ok
  flow : s.enqueued = s.delivered ++ s.pipe.queue

theorem Stream.start_inv (buf : ℕ → UInt8) (readers writers : UInt32) :
    (Stream.start ι buf readers writers).Inv :=
  ⟨pipeNew_ok buf readers writers, by simp [Stream.start, pipeNew, VfsPipe.queue]⟩

variable [DecidableEq ι]

/-- One process does one atomic step. -/
inductive Stream.Step : Stream ι → Stream ι → Prop where
  /-- A process calls `pipe_read`. -/
  | callRead {s : Stream ι} {i : ι} {n : ℕ} (size : UInt32) (h : s.call i = .returned n) :
      Step s { s with call := Function.update s.call i (.read size) }
  /-- A process calls `pipe_write`. -/
  | callWrite {s : Stream ι} {i : ι} {n : ℕ} (buf : List UInt8) (h : s.call i = .returned n) :
      Step s { s with call := Function.update s.call i (.write buf buf) }
  /-- A process in `pipe_read` holds the lock once. -/
  | read {s : Stream ι} {i : ι} {size : UInt32} (h : s.call i = .read size) :
      Step s { s with pipe := (readSection size s.pipe).2.2
                      call := Function.update s.call i (readSection size s.pipe).1
                      delivered := s.delivered ++ (readSection size s.pipe).2.1 }
  /-- A process in `pipe_write` holds the lock once. -/
  | write {s : Stream ι} {i : ι} {buf rest : List UInt8} (h : s.call i = .write buf rest) :
      Step s { s with pipe := (writeSection buf rest s.pipe).2.2
                      call := Function.update s.call i (writeSection buf rest s.pipe).1
                      enqueued := s.enqueued ++ (writeSection buf rest s.pipe).2.1 }
  /-- Ends are opened or closed. -/
  | ends {s : Stream ι} (readers writers : UInt32) :
      Step s { s with pipe := { s.pipe with readers := readers, writers := writers } }

/-- A reader's stretch takes what it delivers from the front of the queue. -/
theorem readSection_spec (size : UInt32) {p : VfsPipe} (h : p.Ok) :
    (readSection size p).2.2.Ok ∧
      p.queue = (readSection size p).2.1 ++ (readSection size p).2.2.queue := by
  unfold readSection
  split_ifs
  · exact ⟨h, rfl⟩
  · exact readLoop_spec size.toNat h

/-- A writer's stretch puts what it enqueues at the back of the queue. -/
theorem writeSection_spec (buf rest : List UInt8) {p : VfsPipe} (h : p.Ok) :
    (writeSection buf rest p).2.2.Ok ∧
      (writeSection buf rest p).2.2.queue = p.queue ++ (writeSection buf rest p).2.1 := by
  obtain ⟨done, hrest, hok, hq⟩ := writeLoop_spec rest h
  refine ⟨hok, hq.trans ?_⟩
  have hlen : rest.length - (writeLoop rest p).1.length = done.length := by
    have := congrArg List.length hrest
    rw [List.length_append] at this
    omega
  have htake : rest.take done.length = done := by
    conv_lhs => rw [hrest]
    exact List.take_left
  show _ = p.queue ++ rest.take (rest.length - (writeLoop rest p).1.length)
  rw [hlen, htake]

/-- Every atomic step keeps the invariant. -/
theorem Stream.Inv.step {s t : Stream ι} (h : s.Inv) (hst : Stream.Step s t) : t.Inv := by
  cases hst with
  | callRead size _ => exact ⟨h.ok, h.flow⟩
  | callWrite buf _ => exact ⟨h.ok, h.flow⟩
  | @read _ size _ =>
    obtain ⟨hok, hq⟩ := readSection_spec size h.ok
    refine ⟨hok, ?_⟩
    show s.enqueued = (s.delivered ++ (readSection size s.pipe).2.1) ++
      (readSection size s.pipe).2.2.queue
    rw [List.append_assoc, ← hq]
    exact h.flow
  | @write _ buf rest _ =>
    obtain ⟨hok, hq⟩ := writeSection_spec buf rest h.ok
    refine ⟨hok, ?_⟩
    show s.enqueued ++ (writeSection buf rest s.pipe).2.1 =
      s.delivered ++ (writeSection buf rest s.pipe).2.2.queue
    rw [hq, h.flow, List.append_assoc]
  | ends readers writers => exact ⟨⟨h.ok.size, h.ok.used⟩, h.flow⟩

/-- **Stream integrity**: in every state that any interleaving of reads and writes on a
new pipe reaches, `write_pos - read_pos` modulo `2³²` is at most the size,
`PIPE_BUFFER_SIZE`, and the bytes delivered are a prefix of the bytes enqueued. -/
theorem pipe_stream_integrity (buf : ℕ → UInt8) (readers writers : UInt32) {s : Stream ι}
    (h : Reach Stream.Step (Stream.start ι buf readers writers) s) :
    (s.pipe.writePos - s.pipe.readPos).toNat ≤ s.pipe.size.toNat ∧ s.pipe.size = pipeBufferSize ∧
      s.delivered <+: s.enqueued := by
  have hi : s.Inv :=
    Reach.invariant (fun _ _ hs hst => hs.step hst) (Stream.start_inv buf readers writers) h
  exact ⟨hi.ok.used, hi.ok.size, ⟨s.pipe.queue, hi.flow.symm⟩⟩

/-- A writer enqueues two bytes and a reader takes one of them. -/
theorem pipe_stream_integrity_two_bytes :
    ∃ s : Stream Bool, Reach Stream.Step (Stream.start Bool (fun _ => 0) 1 1) s ∧
      s.delivered = [7] ∧
      s.enqueued = [7, 8] ∧ (s.pipe.writePos - s.pipe.readPos).toNat ≤ s.pipe.size.toNat ∧
        s.pipe.size = pipeBufferSize ∧ s.delivered <+: s.enqueued := by
  have h₁ : Reach Stream.Step (Stream.start Bool (fun _ => 0) 1 1) _ :=
    .single (.callWrite (i := true) (n := 0) [7, 8] rfl)
  have h₂ := h₁.tail (.write (i := true) (show _ = Call.write [7, 8] [7, 8] by simp))
  have h₃ := h₂.tail (.callRead (i := false) (n := 0) 1 (by simp [Stream.start]))
  have h₄ := h₃.tail (.read (i := false) (show _ = Call.read 1 by simp))
  exact ⟨_, h₄, by decide, by decide, pipe_stream_integrity _ _ _ h₄⟩

end Cosiris.Pipe
