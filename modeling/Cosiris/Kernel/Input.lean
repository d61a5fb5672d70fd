import Cosiris.Kernel.Editor
import Cosiris.Lib.Ring

/-!
# The input ring of a terminal

`tty_iput` and `tty_read` of `tty.c`, over `ring_buf.c`. The steps are those of a reader, which
may be busy or asleep, and the effects of calls of `tty_in`, in any order: interrupts come between
any two steps of the reader, and between the effects of other interrupts when `tty_iput` switches
the task. -/

namespace Cosiris.Input

open Function

/-- `TTY_IN_BUF_SIZE`. -/
def ttyInBufSize : ℕ := 128

/-- `ring_buf_t`, of that size. -/
structure RingBuf where
  buf : ℕ → UInt8
  head : UInt32
  tail : UInt32

namespace RingBuf

/-- `rb_is_empty`. -/
def isEmpty (rb : RingBuf) : Bool := rb.head = rb.tail

/-- `rb_is_full`. -/
def isFull (rb : RingBuf) : Bool := ttyInBufSize ≤ (rb.head - rb.tail).toNat

/-- `rb_putc`. -/
def putc (rb : RingBuf) (c : UInt8) : RingBuf :=
  { rb with buf := update rb.buf (rb.head.toNat % ttyInBufSize) c, head := rb.head + 1 }

/-- `rb_getc`. -/
def getc (rb : RingBuf) : UInt8 × RingBuf :=
  (rb.buf (rb.tail.toNat % ttyInBufSize), { rb with tail := rb.tail + 1 })

/-- `rb_reset`. -/
def reset (rb : RingBuf) : RingBuf := { rb with head := 0, tail := 0 }

/-- The bytes in the ring. -/
def contents (rb : RingBuf) : List UInt8 := Ring.contents rb.buf ttyInBufSize rb.tail rb.head

/-- How many there are. -/
def used (rb : RingBuf) : ℕ := Ring.used rb.tail rb.head

end RingBuf

/-- The state of the task that reads, as far as `tty_read` looks at it. -/
inductive TaskState
  | running
  | exiting
  | other

/-- Where a call of `tty_read` is: at the top of its loop, in `sleep_on`, or behind it. -/
inductive Phase
  | top
  | asleep
  | woken

/-- A call of `tty_read`, with the bytes that it has. -/
structure Reader where
  size : ℕ
  got : List UInt8
  phase : Phase

/-- The ring, and the reader if there is a call. All the bytes that `tty_iput` accepted, and those
that calls returned, are kept. -/
structure Sys where
  cin : RingBuf
  icanon : Bool
  reader : Option Reader
  accepted : List UInt8
  returned : List UInt8

inductive Action
  /-- Something that a call of `tty_in` does. -/
  | event (e : Event)
  /-- `TCSETS`. -/
  | setMode (icanon : Bool)
  /-- `tty_read` is called, if there is no call. -/
  | read (size : ℕ)
  /-- The call goes on, with its task in a state. -/
  | turn (task : TaskState)
  /-- The task is woken by something else. -/
  | resume

namespace Sys

/-- A reader that sleeps is woken. -/
def wakeup (s : Sys) : Sys :=
  { s with reader := s.reader.map fun r =>
    match r.phase with
    | .asleep => { r with phase := .woken }
    | _ => r }

/-- `tty_iput`. -/
def ttyIput (s : Sys) (c : UInt8) : Sys :=
  let s := { s with cin := s.cin.putc c, accepted := s.accepted ++ [c] }
  if s.cin.isFull ∨ c = 10 ∨ ¬s.icanon then s.wakeup else s

/-- `tty_read` returns its bytes. -/
def finish (s : Sys) (r : Reader) : Sys :=
  { s with reader := none, returned := s.returned ++ r.got }

/-- `tty_read` from the second look at the ring on. -/
def take (s : Sys) (r : Reader) : Sys :=
  if s.cin.isEmpty then s.finish r
  else
    let c := s.cin.getc.1
    let r := { r with got := r.got ++ [c], phase := .top }
    let s := { s with cin := s.cin.getc.2, reader := some r }
    if c = 10 ∨ ¬s.icanon then s.finish r else s

/-- `tty_read` from the top of its loop on. -/
def top (s : Sys) (r : Reader) (task : TaskState) : Sys :=
  if r.got.length < r.size then
    if s.cin.isEmpty then
      match task with
      | .exiting => { s with reader := none }
      | .running => { s with reader := some { r with phase := .asleep } }
      | .other => s.take r
    else s.take r
  else s.finish r

/-- A step. -/
def step (s : Sys) : Action → Sys
  | .event (.iput c) => s.ttyIput c
  | .event .wakeup => s.wakeup
  | .event .reset => { s with cin := s.cin.reset, icanon := true }
  | .event _ => s
  | .setMode icanon => { s with icanon := icanon }
  | .read size =>
    match s.reader with
    | none => { s with reader := some ⟨size, [], .top⟩ }
    | some _ => s
  | .turn task =>
    match s.reader with
    | none => s
    | some r =>
      match r.phase with
      | .top => s.top r task
      | .asleep => s
      | .woken => s.take r
  | .resume => s.wakeup

/-- Some steps. -/
def run (s : Sys) (as : List Action) : Sys := as.foldl step s

/-- A terminal that was opened. -/
def start (buf : ℕ → UInt8) : Sys := ⟨⟨buf, 0, 0⟩, true, none, [], []⟩

/-! ### What is kept -/

/-- The bytes that the call has. -/
def got (s : Sys) : List UInt8 := (s.reader.map Reader.got).getD []

/-- The ring is not overrun, and what was accepted is what was returned, what the call has and
what is in the ring. -/
structure Kept (s : Sys) : Prop where
  used : s.cin.used ≤ ttyInBufSize
  bytes : s.returned ++ s.got ++ s.cin.contents = s.accepted

/-- A step that drops no byte: `tty_iput` finds room, the ring is reset when it is empty, and the
task does not begin to exit when a call waits for more bytes than it has. -/
def Careful (s : Sys) : Action → Prop
  | .event (.iput _) => s.cin.used < ttyInBufSize
  | .event .reset => s.cin.isEmpty = true
  | .turn .exiting =>
      ∀ r ∈ s.reader, r.phase = .top → r.got.length < r.size → s.cin.isEmpty = true → r.got = []
  | _ => True

section

variable {s : Sys} {r : Reader} {c : UInt8}

theorem divides : ttyInBufSize ∣ 2 ^ 32 := by decide

/-- A byte is put behind the others where there is room. -/
theorem contents_putc {rb : RingBuf} (h : rb.used < ttyInBufSize) :
    (rb.putc c).contents = rb.contents ++ [c] :=
  Ring.contents_push divides rb.buf c h (by decide)

theorem used_putc {rb : RingBuf} (h : rb.used ≤ ttyInBufSize) : (rb.putc c).used = rb.used + 1 :=
  Ring.used_succ_right (Nat.lt_of_le_of_lt (Nat.succ_le_succ h) (by decide))

theorem isEmpty_iff {rb : RingBuf} : rb.isEmpty = true ↔ rb.contents = [] := by
  have hlen : rb.contents.length = rb.used := Ring.length_contents _ _ _ _
  have hzero := Ring.used_eq_zero_iff rb.tail rb.head
  unfold RingBuf.isEmpty
  rw [decide_eq_true_iff, ← List.length_eq_zero_iff, hlen]
  exact eq_comm.trans hzero.symm

/-- The first byte is taken from a ring that is not empty. -/
theorem contents_getc {rb : RingBuf} (h : rb.isEmpty = false) :
    rb.contents = rb.getc.1 :: rb.getc.2.contents ∧ rb.getc.2.used ≤ rb.used := by
  have hpos : 0 < rb.used := by
    refine Nat.pos_of_ne_zero fun hzero => ?_
    have hnil : rb.contents = [] :=
      List.length_eq_zero_iff.mp ((Ring.length_contents _ _ _ _).trans hzero)
    rw [isEmpty_iff.mpr hnil] at h
    exact Bool.false_ne_true h.symm
  refine ⟨Ring.contents_pop divides rb.buf hpos, ?_⟩
  exact Nat.le_of_succ_le (Nat.le_of_eq (Ring.used_succ_left hpos))

theorem kept_iff :
    s.Kept ↔ s.cin.used ≤ ttyInBufSize ∧ s.returned ++ s.got ++ s.cin.contents = s.accepted :=
  ⟨fun h => ⟨h.1, h.2⟩, fun h => ⟨h.1, h.2⟩⟩

theorem got_some (hr : s.reader = some r) : s.got = r.got := by
  unfold got
  rw [hr]
  rfl

theorem wakeup_kept : s.wakeup.Kept ↔ s.Kept := by
  have hgot : s.wakeup.got = s.got := by
    unfold got wakeup
    cases s.reader with
    | none => rfl
    | some r =>
      dsimp only [Option.map_some, Option.getD_some]
      cases r.phase <;> rfl
  rw [kept_iff, kept_iff, hgot]
  rfl

/-- A byte is kept when there is room for it. -/
theorem ttyIput_kept (h : s.Kept) : (s.ttyIput c).Kept ↔ s.cin.used < ttyInBufSize := by
  have hput : ({ s with cin := s.cin.putc c, accepted := s.accepted ++ [c] } : Sys).Kept ↔
      s.cin.used < ttyInBufSize := by
    rw [kept_iff]
    dsimp only
    rw [used_putc h.used]
    refine ⟨fun hput => hput.1, fun hroom => ⟨hroom, ?_⟩⟩
    rw [contents_putc hroom, ← List.append_assoc]
    exact congrArg (· ++ [c]) h.bytes
  unfold ttyIput
  dsimp only
  split_ifs
  · rw [wakeup_kept]
    exact hput
  · exact hput

/-- What a call returns is kept. -/
theorem finish_kept (h : s.Kept) (hr : s.reader = some r) : (s.finish r).Kept := by
  have hbytes := h.bytes
  rw [got_some hr] at hbytes
  refine ⟨h.used, ?_⟩
  show s.returned ++ r.got ++ [] ++ s.cin.contents = s.accepted
  rw [List.append_nil]
  exact hbytes

theorem take_kept (h : s.Kept) (hr : s.reader = some r) : (s.take r).Kept := by
  unfold take
  cases hempty : s.cin.isEmpty with
  | true => exact finish_kept h hr
  | false =>
    obtain ⟨hcontents, hused⟩ := contents_getc hempty
    have hbytes := h.bytes
    rw [got_some hr, hcontents] at hbytes
    have htaken : ({ s with
        cin := s.cin.getc.2,
        reader := some { r with got := r.got ++ [s.cin.getc.1], phase := .top } } :
        Sys).Kept := by
      refine ⟨Nat.le_trans hused h.used, ?_⟩
      show s.returned ++ (r.got ++ [s.cin.getc.1]) ++ s.cin.getc.2.contents = s.accepted
      rw [← hbytes]
      simp
    dsimp only
    rw [if_neg Bool.false_ne_true]
    split_ifs
    · exact finish_kept htaken rfl
    · exact htaken

theorem top_kept (h : s.Kept) (hr : s.reader = some r) (task : TaskState) :
    (s.top r task).Kept ↔
      (task = .exiting → r.got.length < r.size → s.cin.isEmpty = true → r.got = []) := by
  unfold top
  by_cases hsize : r.got.length < r.size
  · rw [if_pos hsize]
    cases hempty : s.cin.isEmpty with
    | true =>
      rw [if_pos rfl]
      cases task with
      | exiting =>
        have hbytes := h.bytes
        rw [got_some hr] at hbytes
        rw [kept_iff]
        constructor
        · intro hkept _ _ _
          have hnone : s.returned ++ [] ++ s.cin.contents = s.accepted := hkept.2
          rw [← hbytes, List.append_nil] at hnone
          have hlen := congrArg List.length hnone
          rw [List.length_append, List.length_append, List.length_append] at hlen
          exact List.length_eq_zero_iff.mp (by omega)
        · intro hnil
          refine ⟨h.used, ?_⟩
          rw [hnil rfl hsize rfl] at hbytes
          exact hbytes
      | running =>
        refine iff_of_true ⟨h.used, ?_⟩ nofun
        have hbytes := h.bytes
        rw [got_some hr] at hbytes
        exact hbytes
      | other => exact iff_of_true (take_kept h hr) nofun
    | false =>
      rw [if_neg Bool.false_ne_true]
      exact iff_of_true (take_kept h hr) fun _ _ hfalse => absurd hfalse Bool.false_ne_true
  · rw [if_neg hsize]
    exact iff_of_true (finish_kept h hr) fun _ hlt => absurd hlt hsize

/-- A reset keeps the bytes when there are none. -/
theorem reset_kept (h : s.Kept) : (s.step (.event .reset)).Kept ↔ s.cin.isEmpty = true := by
  have hbytes := h.bytes
  have hused : s.cin.reset.used = 0 := Ring.used_self 0
  have hcontents : s.cin.reset.contents = [] := Ring.contents_self _ _ _
  rw [isEmpty_iff, kept_iff]
  show s.cin.reset.used ≤ _ ∧ s.returned ++ s.got ++ s.cin.reset.contents = s.accepted ↔ _
  rw [hused, hcontents, ← hbytes, and_iff_right (Nat.zero_le _)]
  exact ⟨fun hnil => (List.append_cancel_left hnil).symm, fun hnil => by rw [hnil]⟩

theorem turn_kept (h : s.Kept) (task : TaskState) :
    (s.step (.turn task)).Kept ↔ s.Careful (.turn task) := by
  unfold step Careful
  cases hr : s.reader with
  | none => cases task <;> exact iff_of_true h (by simp)
  | some r =>
    cases hphase : r.phase with
    | top =>
      have htop := top_kept h hr task
      cases task <;> simpa [hphase] using htop
    | asleep => cases task <;> exact iff_of_true (by simpa [hphase] using h) (by simp [hphase])
    | woken =>
      have htake := take_kept h hr
      cases task <;> exact iff_of_true (by simpa [hphase] using htake) (by simp [hphase])

/-- **A step**: the bytes are kept exactly when it is a careful one. -/
theorem step_kept (h : s.Kept) (a : Action) : (s.step a).Kept ↔ s.Careful a := by
  cases a with
  | event e =>
    cases e with
    | iput c => exact ttyIput_kept h
    | wakeup => exact iff_of_true (wakeup_kept.mpr h) trivial
    | reset => exact reset_kept h
    | put | kill | ps | showFgPid | dumpCache => exact iff_of_true h trivial
  | setMode icanon => exact iff_of_true ⟨h.used, h.bytes⟩ trivial
  | read size =>
    refine iff_of_true ?_ trivial
    unfold step
    cases hr : s.reader with
    | none =>
      have hbytes := h.bytes
      unfold got at hbytes
      rw [hr] at hbytes
      exact ⟨h.used, hbytes⟩
    | some r => exact h
  | turn task => exact turn_kept h task
  | resume => exact iff_of_true (wakeup_kept.mpr h) trivial

/-- Each step is a careful one. -/
def AllCareful (s : Sys) : List Action → Prop
  | [] => True
  | a :: as => s.Careful a ∧ (s.step a).AllCareful as

/-- **Runs**: the bytes are kept at all times exactly when each step is a careful one. -/
theorem run_kept {as : List Action} (h : s.Kept) :
    (∀ pre, pre <+: as → (s.run pre).Kept) ↔ s.AllCareful as := by
  induction as generalizing s with
  | nil =>
    refine iff_of_true (fun pre hpre => ?_) trivial
    rw [List.prefix_nil.mp hpre]
    exact h
  | cons a as ih =>
    constructor
    · intro hall
      have hstep := hall [a] (List.prefix_append [a] as)
      refine ⟨(step_kept h a).mp hstep, (ih hstep).mp fun pre hpre => ?_⟩
      exact hall (a :: pre) (List.cons_prefix_cons.mpr ⟨rfl, hpre⟩)
    · rintro ⟨hcareful, hrest⟩ pre hpre
      have hstep := (step_kept h a).mpr hcareful
      cases pre with
      | nil => exact h
      | cons b pre =>
        obtain ⟨rfl, hpre'⟩ := List.cons_prefix_cons.mp hpre
        exact (ih hstep).mpr hrest pre hpre'

theorem start_kept (buf : ℕ → UInt8) : (start buf).Kept := by
  have hused : (start buf).cin.used = 0 := Ring.used_self 0
  have hcontents : (start buf).cin.contents = [] := Ring.contents_self _ _ _
  rw [kept_iff, hused, hcontents]
  exact ⟨Nat.zero_le _, rfl⟩

/-- **From a terminal that was opened, the input ring is never overrun and the bytes that
`tty_read` returns are those that `tty_iput` accepted, in order, exactly when each step is a
careful one.** -/
theorem input_kept_iff (buf : ℕ → UInt8) (as : List Action) :
    (∀ pre, pre <+: as → ((start buf).run pre).Kept) ↔ (start buf).AllCareful as :=
  run_kept (start_kept buf)

end

end Sys

/-- What some calls of `tty_in` do, with no reader in between. -/
def keys (tty : Tty) : List UInt8 → List Action
  | [] => []
  | c :: cs => (ttyIn tty c).2.map Action.event ++ keys (ttyIn tty c).1 cs

/-- A line of 128 characters. -/
def longInput : List UInt8 := List.replicate 128 97 ++ [10]

/-- The newline finds no room. -/
theorem not_input_kept : ¬∀ (buf : ℕ → UInt8) (as : List Action), ∀ pre, pre <+: as →
    ((Sys.start buf).run pre).Kept := by
  intro h
  have hkept := h (fun _ => 0) (keys opened longInput) _ (List.prefix_refl _)
  exact absurd hkept.used (by decide +kernel)

end Cosiris.Input
