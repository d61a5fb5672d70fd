import Cosiris.Lib.Runs
import Cosiris.Pipe.Buffer

/-!
# Writing to a pipe that loses its readers

One call of `pipe_write`, in pieces that run while `pipe->lock` is held, among reads and openings
and closings of the read end. The call that finds the buffer full returns 0 when there is no
reader, whatever it has put into the buffer before. So what it returns is the number of bytes that
it has enqueued only if the last reader goes away when the call has room for all that is left, or
has enqueued nothing and cannot (`broken_write_counts`). -/

namespace Cosiris.Pipe

/-- The call of `pipe_write`: with `rest` of its buffer to write, or returned. -/
inductive WriteCall where
  | writing (size : ℕ) (rest : List UInt8)
  | returned (n : ℕ)
  deriving DecidableEq

/-- The pipe, the call, and how many bytes the call has enqueued. -/
structure Broken where
  pipe : VfsPipe
  call : WriteCall
  sent : ℕ

/-- The call entered with the buffer `bs`. -/
def Broken.enter (p : VfsPipe) (bs : List UInt8) : Broken := ⟨p, .writing bs.length bs, 0⟩

/-- The call from where it takes the lock to where it sleeps or returns: the loop runs until all
is written or the buffer is full. -/
def Broken.write (size : ℕ) (rest : List UInt8) (s : Broken) : Broken where
  pipe := (writeLoop rest s.pipe).2
  call := match (writeLoop rest s.pipe).1 with
    | [] => .returned size
    | left => if (writeLoop rest s.pipe).2.readers = 0 then .returned 0 else .writing size left
  sent := s.sent + (rest.length - (writeLoop rest s.pipe).1.length)

/-- A `pipe_read` of `n` bytes. -/
def Broken.read (n : ℕ) (s : Broken) : Broken := { s with pipe := (readLoop n s.pipe).2 }

/-- A read end opened. -/
def Broken.openReader (s : Broken) : Broken :=
  { s with pipe := { s.pipe with readers := s.pipe.readers + 1 } }

/-- A read end closed. -/
def Broken.closeReader (s : Broken) : Broken :=
  { s with pipe := { s.pipe with readers := s.pipe.readers - 1 } }

/-- The room in the buffer. -/
def VfsPipe.room (p : VfsPipe) : ℕ := p.size.toNat - p.used

/-- The call does not mind that there is no reader: it has returned, or there is room for all that
is left, or it has enqueued nothing and there is no room. -/
def Broken.Unharmed (s : Broken) : Prop :=
  match s.call with
  | .writing _ rest => rest.length ≤ s.pipe.room ∨ s.sent = 0 ∧ s.pipe.room = 0
  | .returned _ => True

/-- The steps. Only a process with an open read end reads, or opens or closes one. -/
inductive Broken.Step : Broken → Broken → Prop where
  | write {s : Broken} {size : ℕ} {rest : List UInt8} (call : s.call = .writing size rest) :
      Step s (s.write size rest)
  | read {s : Broken} (n : ℕ) (readers : s.pipe.readers ≠ 0) : Step s (s.read n)
  | openReader {s : Broken} (readers : s.pipe.readers ≠ 0) (max : s.pipe.readers + 1 ≠ 0) :
      Step s s.openReader
  | closeReader {s : Broken} (readers : s.pipe.readers ≠ 0) : Step s s.closeReader

/-- A step that does not take the last reader away from a call that minds. -/
def Broken.CarefulStep (s s' : Broken) : Prop :=
  s.Step s' ∧ (s.pipe.readers ≠ 0 → s'.pipe.readers = 0 → s.Unharmed)

/-- What the call has enqueued and what is left is all; and when there is no reader, the call does
not mind. -/
structure Broken.Counts (n : ℕ) (s : Broken) : Prop where
  ok : s.pipe.Ok
  writing : ∀ size rest, s.call = .writing size rest → size = n ∧ s.sent + rest.length = n
  returned : ∀ r, s.call = .returned r → r = s.sent
  unharmed : s.pipe.readers = 0 → s.Unharmed

section

variable {p : VfsPipe} {s s' : Broken} {n size : ℕ} {bs rest : List UInt8}

theorem VfsPipe.length_queue (p : VfsPipe) : p.queue.length = p.used := Ring.length_contents _ _ _ _

/-- The loop of a write fills the room. -/
theorem writeLoop_length (h : p.Ok) (cs : List UInt8) :
    (writeLoop cs p).1.length = cs.length - p.room := by
  induction cs generalizing p with
  | nil => simp [writeLoop]
  | cons c cs ih =>
    have hused : p.used ≤ p.size.toNat := h.used
    rw [writeLoop]
    by_cases hf : p.writePos = p.readPos + p.size
    · have hfull : p.used = p.size.toNat := (Ring.used_eq_size_iff _ _ _).mpr hf
      rw [if_pos hf, VfsPipe.room, hfull, Nat.sub_self, Nat.sub_zero]
    · obtain ⟨hok, hq⟩ := h.put c hf
      have hlen := congrArg List.length hq
      rw [List.length_append, VfsPipe.length_queue, VfsPipe.length_queue,
        List.length_singleton] at hlen
      have hused' : (p.put c).used ≤ p.size.toNat := hok.used
      have hroom : (p.put c).room = p.room - 1 := by
        show p.size.toNat - (p.put c).used = p.size.toNat - p.used - 1
        omega
      rw [if_neg hf]
      refine (ih hok).trans ?_
      rw [hroom, List.length_cons, VfsPipe.room]
      omega

/-- What a piece of the call does. -/
theorem Broken.Counts.write (h : s.Counts n) (hcall : s.call = .writing size rest) :
    (s.write size rest).Counts n := by
  obtain ⟨rfl, hsum⟩ := h.writing size rest hcall
  obtain ⟨-, -, hok, -⟩ := writeLoop_spec rest h.ok
  have hlen := writeLoop_length h.ok rest
  have hreaders := (writeLoop_counts rest s.pipe).1
  cases hleft : (writeLoop rest s.pipe).1 with
  | nil =>
    have hc : (s.write size rest).call = .returned size := by simp only [Broken.write, hleft]
    have hsent : (s.write size rest).sent = s.sent + rest.length := by simp [Broken.write, hleft]
    refine ⟨hok, fun size' rest' hw => ?_, fun r hr => ?_, fun _ => ?_⟩
    · rw [hc] at hw
      cases hw
    · rw [hc] at hr
      cases hr
      rw [hsent, hsum]
    · simp only [Broken.Unharmed, hc]
  | cons c left =>
    rw [hleft, List.length_cons] at hlen
    have hsent : (s.write size rest).sent = s.sent + (rest.length - (left.length + 1)) := by
      simp [Broken.write, hleft]
    by_cases h0 : s.pipe.readers = 0
    · have hc : (s.write size rest).call = .returned 0 := by
        simp only [Broken.write, hleft, hreaders, h0, if_true]
      have hun := h.unharmed h0
      simp only [Broken.Unharmed, hcall] at hun
      refine ⟨hok, fun size' rest' hw => ?_, fun r hr => ?_, fun _ => ?_⟩
      · rw [hc] at hw
        cases hw
      · rw [hc] at hr
        cases hr
        rw [hsent]
        omega
      · simp only [Broken.Unharmed, hc]
    · have hc : (s.write size rest).call = .writing size (c :: left) := by
        simp only [Broken.write, hleft, hreaders, h0, if_false]
      refine ⟨hok, fun size' rest' hw => ?_, fun r hr => ?_, fun hz =>
        absurd (hreaders.symm.trans hz) h0⟩
      · rw [hc] at hw
        cases hw
        rw [hsent, List.length_cons]
        exact ⟨rfl, by omega⟩
      · rw [hc] at hr
        cases hr

/-- Reads, and openings and closings that the call does not mind. -/
theorem Broken.Counts.step (h : s.Counts n) (hs : s.CarefulStep s') : s'.Counts n := by
  obtain ⟨hstep, hlast⟩ := hs
  cases hstep with
  | write hcall => exact h.write hcall
  | read k hr =>
    refine ⟨(readLoop_spec k h.ok).1, h.writing, h.returned, fun h0 => absurd ?_ hr⟩
    rw [← (readLoop_counts k s.pipe).1]
    exact h0
  | openReader hr hmax =>
      exact ⟨⟨h.ok.size, h.ok.used⟩, h.writing, h.returned, fun h0 => absurd h0 hmax⟩
  | closeReader hr => exact ⟨⟨h.ok.size, h.ok.used⟩, h.writing, h.returned, fun h0 => hlast hr h0⟩

/-- **A write returns the number of bytes that it has enqueued**, if the last reader goes away
only when it has room for all that is left, or has enqueued nothing and cannot. -/
theorem broken_write_counts (p : VfsPipe) (bs : List UInt8) (s : Broken) (h : p.Ok)
    (hstart : p.readers = 0 → (Broken.enter p bs).Unharmed)
    (hr : Reach Broken.CarefulStep (Broken.enter p bs) s) (r : ℕ)
    (hret : s.call = .returned r) : r = s.sent := by
  have hinit : (Broken.enter p bs).Counts bs.length := by
    refine ⟨h, fun size rest hw => ?_, fun r hr => (by cases hr), hstart⟩
    cases hw
    exact ⟨rfl, Nat.zero_add _⟩
  exact (Reach.invariant (I := Broken.Counts bs.length)
    (fun _ _ hc hs => hc.step hs) hinit hr).returned r hret

end

/-- A new pipe with one reader and one writer. -/
def onePipe : VfsPipe := pipeNew (fun _ => 0) 1 1

/-- The last reader goes away before a byte is written, and there is room for it. -/
theorem broken_write_counts_byte :
    onePipe.Ok ∧ ∃ s, Reach Broken.CarefulStep (Broken.enter onePipe [5]) s ∧ s.call = .returned 1 ∧
      1 = s.sent := by
  have hok : onePipe.Ok := pipeNew_ok _ _ _
  have h₁ : Broken.CarefulStep (Broken.enter onePipe [5]) (Broken.enter onePipe [5]).closeReader :=
    ⟨.closeReader (by decide), fun _ _ => .inl (by decide)⟩
  have h₂ : Broken.CarefulStep (Broken.enter onePipe [5]).closeReader
    ((Broken.enter onePipe [5]).closeReader.write 1 [5]) :=
    ⟨.write rfl, fun h => absurd rfl h⟩
  have hreach : Reach Broken.CarefulStep (Broken.enter onePipe [5]) _ :=
    (Relation.ReflTransGen.single h₁).tail h₂
  exact ⟨hok, _, hreach, by decide +kernel,
    broken_write_counts onePipe [5] _ hok (fun h => absurd h (by decide)) hreach 1
      (by decide +kernel)⟩

/-- A buffer of one byte more than the pipe has room for. -/
def longBuffer : List UInt8 := List.replicate 1025 7

/-- The call fills the pipe and sleeps, the last reader goes away, and the call returns 0. -/
theorem enqueued_not_counted :
    onePipe.Ok ∧ ∃ s, Reach Broken.Step (Broken.enter onePipe longBuffer) s ∧ s.call = .returned 0 ∧
      s.sent = 1024 := by
  have h₁ : Broken.Step (Broken.enter onePipe longBuffer)
    ((Broken.enter onePipe longBuffer).write 1025 longBuffer) :=
    .write (by decide +kernel)
  generalize hs₁ : (Broken.enter onePipe longBuffer).write 1025 longBuffer = s₁ at h₁
  have h₂ : Broken.Step s₁ s₁.closeReader := .closeReader (by rw [← hs₁]; decide +kernel)
  have h₃ : Broken.Step s₁.closeReader (s₁.closeReader.write 1025 [7]) :=
    .write (by rw [← hs₁]; decide +kernel)
  refine ⟨pipeNew_ok _ _ _, _, ((Relation.ReflTransGen.single h₁).tail h₂).tail h₃, ?_, ?_⟩
  · rw [← hs₁]
    decide +kernel
  · rw [← hs₁]
    decide +kernel

end Cosiris.Pipe
