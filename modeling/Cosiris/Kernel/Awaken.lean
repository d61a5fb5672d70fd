import Cosiris.Kernel.Signals
import Mathlib.Data.List.Basic

/-!
# Wake-ups and signals

A task that sleeps and is sent a signal becomes `TASK_AWAKEN`, runs its handler, and sleeps again.
`wakeup` looks only at tasks that are `TASK_SLEEPING`, so that a wake-up between the signal and
the end of the handler is lost.

In every run in which no wake-up comes at such a moment, and no handler sleeps above a `sleep_on`
that was woken, a task that was woken is not `TASK_SLEEPING` before it has returned from
`sleep_on`. -/

namespace Cosiris.Signals

open Prog

/-- **No wake-up is swallowed**: a task that was woken, and has not returned from `sleep_on`, is
not `TASK_SLEEPING`. -/
def State.NoSwallow (s : State) : Prop :=
  ∀ t a, .sleepOn a true ∈ s.calls t → (s.task t).state ≠ .sleeping

/-- A wake-up for `a` finds no task, in a `sleep_on` of `a`, that is `TASK_AWAKEN`, or in a
handler that it entered when it was not running, or asleep in a handler; and no task goes to sleep
in a handler above a `sleep_on` that was woken. -/
def Op.Heard (s : State) : Op → Prop
  | wakeup a =>
      ∀ t woken above below, s.calls t = above ++ .sleepOn a woken :: below →
        (s.task t).state ≠ .awaken ∧
    ((s.task t).state = .sleeping → above = []) ∧ ∀ point state, .handler point state ∈ above →
      state = .running
  | sleepOn _ | sleepOnms _ _ => ∀ a, .sleepOn a true ∉ s.calls s.current
  | _ => True

/-- The tasks are linked in the order of their numbers, all run, and none is in `sleep_on` or in a
handler. -/
structure Ready (s : State) : Prop where
  current : s.current < s.count
  linked : ∀ t, t + 1 < s.count → (s.task t).next = some (t + 1)
  bound : ∀ t n, (s.task t).next = some n → n < s.count
  state : ∀ t, (s.task t).state = .running
  regs : ∀ t, ∃ pc, (s.task t).regs = .run pc
  sTask : ∀ t, (s.task t).sTask = none
  calls : ∀ t, s.calls t = []

/-! ### The invariant -/

/-- The latest call is a `sleep_on`. -/
def topSleeps : List Call → Bool
  | .sleepOn _ _ :: _ => true
  | _ => false

/-- A `sleep_on` is called in a handler, or with no call before it. -/
def Apart : List Call → Prop
  | [] => True
  | .sleepOn _ _ :: rest => topSleeps rest = false ∧ Apart rest
  | .handler _ _ :: rest => Apart rest

/-- The record `x` of task `t` goes with the calls. -/
structure Fits (s : State) (t : ℕ) (x : Task) (calls : List Call) : Prop where
  woken : ∀ a, .sleepOn a true ∈ calls → x.state = .running ∨ x.state = .exiting
  addr : ∀ a w rest, calls = .sleepOn a w :: rest → x.state = .sleeping ∨ x.state = .awaken →
      x.sleepAddr = some a
  top : topSleeps calls = true → x.state = .exiting ∨ ∃ pc, x.regs = .sleep pc
  sleep : ∀ pc, x.regs = .sleep pc → topSleeps calls = true
  apart : Apart calls
  link : ∀ y, t < y → y < s.count → (s.task y).state ≠ .exiting →
      ∃ n, x.next = some n ∧ t < n ∧ n ≤ y
  bound : ∀ n, x.next = some n → n < s.count

/-- The state between two steps. -/
structure Inv (s : State) : Prop where
  current : s.current < s.count
  calls : ∀ t, s.calls t ≠ [] → t < s.count
  fits : ∀ t, Fits s t (s.task t) (s.calls t)
  saved : ∀ t k, (s.task t).sTask = some k → k < s.savedCount ∧ ∃ above point below,
    s.calls t = above ++ .handler point (s.saved k).state :: below ∧
      (∀ p st, .handler p st ∉ above) ∧
      Fits s t (s.saved k) below

section

variable {s s' : State} {t : ℕ} {x y : Task} {c : List Call}

theorem Inv.noSwallow (h : Inv s) : s.NoSwallow := fun t a hm hs => by
  rcases (h.fits t).woken a hm with he | he <;> rw [he] at hs <;> cases hs

theorem Ready.inv (h : Ready s) : Inv s where
  current := h.current
  calls t ht := absurd (h.calls t) ht
  fits t := by
    rw [h.calls]
    constructor
    case woken => simp
    case addr => simp
    case top => simp [topSleeps]
    case sleep =>
      intro pc hpc
      obtain ⟨pc', hr⟩ := h.regs t
      rw [hr] at hpc
      cases hpc
    case apart => trivial
    case link =>
      intro y hy hc _
      exact ⟨t + 1, h.linked t (by omega), by omega, by omega⟩
    case bound => exact h.bound t
  saved t k hk := by
    rw [h.sTask] at hk
    cases hk

/-- The links pass over no task that has not exited. -/
theorem mem_walk {link : ℕ → Option ℕ} {y : ℕ}
    (hlink : ∀ z, z < y → ∃ n, link z = some n ∧ z < n ∧ n ≤ y) (fuel : ℕ) :
    ∀ z, z ≤ y → y < z + fuel → y ∈ walk link fuel z := by
  induction fuel with
  | zero => exact fun z _ _ => absurd ‹_› (by omega)
  | succ fuel ih =>
    intro z hz hf
    rw [walk]
    rcases Nat.lt_or_eq_of_le hz with hlt | rfl
    · obtain ⟨n, hn, hzn, hny⟩ := hlink z hlt
      rw [hn]
      exact List.mem_cons_of_mem _ (ih n hny (by omega))
    · exact List.mem_cons_self ..

theorem Inv.mem_queue (h : Inv s) (ht : t < s.count) (hs : (s.task t).state ≠ .exiting) :
    t ∈ s.queue :=
  mem_walk (fun z hz => (h.fits z).link t hz ht hs) s.count 0 (Nat.zero_le t) (by omega)

theorem walk_lt {link : ℕ → Option ℕ} {m : ℕ} (hlink : ∀ z n, link z = some n → n < m) (fuel : ℕ) :
    ∀ z, z < m → ∀ y ∈ walk link fuel z, y < m := by
  induction fuel with
  | zero => exact fun z _ y hy => by cases hy
  | succ fuel ih =>
    intro z hz y hy
    rw [walk] at hy
    rcases List.mem_cons.mp hy with rfl | hy
    · exact hz
    · cases hn : link z with
      | none =>
        rw [hn] at hy
        cases hy
      | some n =>
        rw [hn] at hy
        exact ih n (hlink z n hn) y hy

theorem Inv.queue_lt (h : Inv s) (ht : t ∈ s.queue) : t < s.count :=
  walk_lt (fun z n hn => (h.fits z).bound n hn) s.count 0 (Nat.zero_lt_of_lt h.current) t ht

/-! ### Steps that leave the calls as they are -/

/-- No task has come back from its exit. -/
structure Older (s s' : State) : Prop where
  count : s'.count = s.count
  live : ∀ y, (s'.task y).state ≠ .exiting → (s.task y).state ≠ .exiting

theorem Fits.older (h : Fits s t x c) (ho : Older s s') : Fits s' t x c := by
  constructor
  case woken => exact h.woken
  case addr => exact h.addr
  case top => exact h.top
  case sleep => exact h.sleep
  case apart => exact h.apart
  case link =>
    intro y hy hc hl
    exact h.link y hy (ho.count ▸ hc) (ho.live y hl)
  case bound =>
    rw [ho.count]
    exact h.bound

/-- What a step may do to the record of a task without a word to its calls. -/
structure Tame (x y : Task) : Prop where
  next : y.next = x.next
  sTask : y.sTask = x.sTask
  live : y.state ≠ .exiting → x.state ≠ .exiting
  woken : x.state = .running ∨ x.state = .exiting → y.state = .running ∨ y.state = .exiting
  addr : y.state = .sleeping ∨ y.state = .awaken → (x.state = .sleeping ∨ x.state = .awaken) ∧
      y.sleepAddr = x.sleepAddr
  exiting : x.state = .exiting → y.state = .exiting
  regs : ∀ pc, x.regs = .sleep pc ↔ y.regs = .sleep pc

theorem Tame.refl (x : Task) : Tame x x := ⟨rfl, rfl, id, id, fun h => ⟨h, rfl⟩, id, fun _ => .rfl⟩

theorem Fits.tame (h : Fits s t x c) (ht : Tame x y) : Fits s t y c := by
  constructor
  case woken => exact fun a hm => ht.woken (h.woken a hm)
  case addr =>
    intro a w rest hc hs
    obtain ⟨hx, he⟩ := ht.addr hs
    rw [he]
    exact h.addr a w rest hc hx
  case top =>
    intro hc
    rcases h.top hc with he | ⟨pc, hr⟩
    · exact .inl (ht.exiting he)
    · exact .inr ⟨pc, (ht.regs pc).mp hr⟩
  case sleep => exact fun pc hr => h.sleep pc ((ht.regs pc).mpr hr)
  case apart => exact h.apart
  case link =>
    rw [ht.next]
    exact h.link
  case bound =>
    rw [ht.next]
    exact h.bound

theorem Inv.tame (h : Inv s) (ht : ∀ t, Tame (s.task t) (s'.task t)) (hcount : s'.count = s.count)
    (hcur : s'.current < s.count) (hcalls : s'.calls = s.calls) (hsaved : s'.saved = s.saved)
    (hn : s'.savedCount = s.savedCount) : Inv s' := by
  have ho : Older s s' := ⟨hcount, fun y => (ht y).live⟩
  constructor
  case current =>
    rw [hcount]
    exact hcur
  case calls =>
    rw [hcalls, hcount]
    exact h.calls
  case fits =>
    intro t
    rw [hcalls]
    exact ((h.fits t).tame (ht t)).older ho
  case saved =>
    intro t k hk
    rw [(ht t).sTask] at hk
    obtain ⟨hlt, above, point, below, hc, hno, hf⟩ := h.saved t k hk
    rw [hcalls, hsaved, hn]
    exact ⟨hlt, above, point, below, hc, hno, hf.older ho⟩

/-- A step that changes the record of one task. -/
theorem Inv.tame_update {f : Task → Task} (h : Inv s) (t : ℕ)
    (ht : Tame (s.task t) (f (s.task t))) :
    Inv (s.update t f) := by
  refine h.tame (fun u => ?_) rfl h.current rfl rfl rfl
  by_cases he : u = t
  · subst he
    simpa [State.update] using ht
  · simpa [State.update, he] using Tame.refl (s.task u)

/-! ### Steps of one task -/

theorem Inv.change (h : Inv s) (ht : t < s.count)
    (hlive : x.state ≠ .exiting → (s.task t).state ≠ .exiting)
    (hfits : Fits s t x c) (hsaved : ∀ k, x.sTask = some k → k < s.savedCount ∧ ∃ above point below,
      c = above ++ .handler point (s.saved k).state :: below ∧ (∀ p st, .handler p st ∉ above) ∧
        Fits s t (s.saved k) below) :
    Inv ((s.update t fun _ => x).setCalls t c) := by
  have htask : ∀ u, ((s.update t fun _ => x).setCalls t c).task u = if u = t then x
    else s.task u := fun u => by
    simp [State.setCalls, State.update, Function.update_apply]
  have hcalls : ∀ u, ((s.update t fun _ => x).setCalls t c).calls u = if u = t then c
    else s.calls u := fun u => by
    simp [State.setCalls, State.update, Function.update_apply]
  have ho : Older s ((s.update t fun _ => x).setCalls t c) := by
    refine ⟨rfl, fun y hy => ?_⟩
    rw [htask] at hy
    split_ifs at hy with he
    · rw [he]
      exact hlive hy
    · exact hy
  constructor
  case current => exact h.current
  case calls =>
    intro u hu
    rw [hcalls] at hu
    split_ifs at hu with he
    · rw [he]
      exact ht
    · exact h.calls u hu
  case fits =>
    intro u
    rw [htask, hcalls]
    split_ifs with he
    · rw [he]
      exact hfits.older ho
    · exact (h.fits u).older ho
  case saved =>
    intro u k hk
    rw [htask] at hk
    rw [hcalls]
    split_ifs at hk ⊢ with he
    · obtain ⟨hlt, above, point, below, hc, hno, hf⟩ := hsaved k hk
      exact ⟨hlt, above, point, below, hc, hno, he ▸ hf.older ho⟩
    · obtain ⟨hlt, above, point, below, hc, hno, hf⟩ := h.saved u k hk
      exact ⟨hlt, above, point, below, hc, hno, hf.older ho⟩

theorem Inv.sleepOn {a : Addr} (h : Inv s) (hr : s.Runs)
    (hw : ∀ b, .sleepOn b true ∉ s.calls s.current) :
    wp (sleepOn a) (fun _ => Inv) (fun _ _ => False) s := by
  obtain ⟨⟨pc, hpc⟩, hlive⟩ := hr
  have hne : (s.task s.current).state ≠ .exiting := by
    rcases hlive with he | he <;> rw [he] <;> exact TaskState.noConfusion
  have htop : topSleeps (s.calls s.current) = false := by
    by_contra hc
    rcases (h.fits s.current).top (by simpa using hc) with he | ⟨pc', hr⟩
    · exact hne he
    · rw [hpc] at hr
      cases hr
  have hs : Inv { s with switchLocked := false } :=
    h.tame (fun t => Tame.refl _) rfl h.current rfl rfl rfl
  have hf := hs.fits s.current
  simp only [Signals.sleepOn, wp_modify]
  refine hs.change h.current (fun _ => hne) ?_ fun k hk => ?_
  · constructor
    case woken =>
      intro b hm
      rcases List.mem_cons.mp hm with he | hm
      · cases he
      · exact absurd hm (hw b)
    case addr =>
      intro b w rest hc _
      cases hc
      rfl
    case top => exact fun _ => .inr ⟨pc, by simp [hpc]⟩
    case sleep => exact fun _ _ => rfl
    case apart => exact ⟨htop, hf.apart⟩
    case link => exact hf.link
    case bound => exact hf.bound
  · obtain ⟨hlt, above, point, below, hc, hno, hf⟩ := hs.saved s.current k hk
    refine ⟨hlt, .sleepOn a false :: above, point, below, ?_, fun p st hm => ?_, hf⟩
    · show _ :: s.calls s.current = _
      rw [show s.calls s.current = _ from hc]
      rfl
    · rcases List.mem_cons.mp hm with he | hm
      · cases he
      · exact hno p st hm

theorem exists_of_topSleeps (h : topSleeps c = true) : ∃ a w rest, c = .sleepOn a w :: rest := by
  cases c with
  | nil => cases h
  | cons d rest => cases d with
    | sleepOn a w => exact ⟨a, w, rest, rfl⟩
    | handler p st => cases h

theorem Inv.intReturn (h : Inv s) : wp intReturn (fun _ => Inv) (fun _ _ => False) s := by
  simp only [Signals.intReturn, wp_modify]
  cases hr : (s.task s.current).regs with
  | run pc => exact h
  | wakes a => exact h
  | gone => exact h
  | sleep pc =>
    have hf := h.fits s.current
    obtain ⟨a, w, rest, hc⟩ := exists_of_topSleeps (hf.sleep pc hr)
    rw [hc] at hf
    show Inv ((s.update s.current _).setCalls s.current (s.calls s.current).tail)
    rw [hc]
    refine h.change h.current id ?_ fun k hk => ?_
    · constructor
      case woken => exact fun b hm => hf.woken b (List.mem_cons_of_mem _ hm)
      case addr =>
        intro b w' rest' hc' _
        have hno := hf.apart.1
        rw [List.tail_cons] at hc'
        rw [hc'] at hno
        cases hno
      case top =>
        intro ht
        rw [List.tail_cons, hf.apart.1] at ht
        cases ht
      case sleep => exact fun pc' hpc' => by cases hpc'
      case apart => exact hf.apart.2
      case link => exact hf.link
      case bound => exact hf.bound
    · obtain ⟨hlt, above, point, below, hcalls, hno, hf⟩ := h.saved s.current k hk
      rw [hc] at hcalls
      cases above with
      | nil => cases hcalls
      | cons d above =>
        obtain ⟨rfl, hrest⟩ := List.cons.inj hcalls
        exact ⟨hlt, above, point, below, hrest,
          fun p st hm => hno p st (List.mem_cons_of_mem _ hm), hf⟩

theorem afterHandler_append {above below : List Call} {point : Point} {state : TaskState}
    (hno : ∀ p st, .handler p st ∉ above) :
    afterHandler (above ++ .handler point state :: below) = below := by
  induction above with
  | nil => rfl
  | cons d above ih => cases d with
    | sleepOn a w => exact ih fun p st hm => hno p st (List.mem_cons_of_mem _ hm)
    | handler p st => exact absurd (List.mem_cons_self ..) (hno p st)

theorem Inv.signalHandlerReturn (h : Inv s) (hr : s.Runs) :
    wp signalHandlerReturn (fun _ => Inv) (fun _ _ => True) s := by
  have hne : (s.task s.current).state ≠ .exiting := by
    rcases hr.2 with he | he <;> rw [he] <;> exact TaskState.noConfusion
  simp only [Signals.signalHandlerReturn, wp_bind, wp_read]
  cases hk : (s.task s.current).sTask with
  | none => trivial
  | some k =>
    obtain ⟨hlt, above, point, below, hc, hno, hf⟩ := h.saved s.current k hk
    rw [wp_modify, hc, afterHandler_append hno]
    refine h.change h.current (fun _ => hne) ?_ fun k' hk' => by cases hk'
    constructor
    case woken =>
      intro a hm
      rcases hf.woken a hm with he | he <;> simp [he]
    case addr =>
      intro a w rest hbelow hs
      refine hf.addr a w rest hbelow ?_
      by_cases ha : (s.saved k).state = .awaken
      · exact .inr ha
      · simpa only [if_neg ha] using hs
    case top =>
      intro ht
      rcases hf.top ht with he | hpc
      · left
        simp [he]
      · exact .inr hpc
    case sleep => exact hf.sleep
    case apart => exact hf.apart
    case link => exact hf.link
    case bound => exact hf.bound

theorem State.save_saved : s.save.saved s.savedCount = s.task s.current := Function.update_self ..

theorem State.save_saved_of_lt {k : ℕ} (h : k < s.savedCount) : s.save.saved k = s.saved k :=
  Function.update_of_ne (by omega) ..

theorem Inv.save (h : Inv s) : Inv s.save where
  current := h.current
  calls := h.calls
  fits t := (h.fits t).older ⟨rfl, fun _ => id⟩
  saved t k hk := by
    obtain ⟨hlt, above, point, below, hc, hno, hf⟩ := h.saved t k hk
    rw [State.save_saved_of_lt hlt]
    exact ⟨Nat.lt_succ_of_lt hlt, above, point, below, hc, hno, hf.older ⟨rfl, fun _ => id⟩⟩

theorem Inv.enterHandler (h : Inv s) (f : ℕ) :
    wp (enterHandler f) (fun _ => Inv) (fun _ _ => False) s := by
  have hf := h.save.fits s.current
  simp only [Signals.enterHandler, wp_modify]
  refine h.save.change h.current id ?_ fun k hk => ?_
  · constructor
    case woken =>
      intro a hm
      rcases List.mem_cons.mp hm with he | hm
      · cases he
      · exact hf.woken a hm
    case addr => exact fun a w rest hc => by cases hc
    case top => exact fun ht => by cases ht
    case sleep => exact fun pc hpc => by cases hpc
    case apart => exact hf.apart
    case link => exact hf.link
    case bound => exact hf.bound
  · cases hk
    refine ⟨Nat.lt_succ_self _, [], (s.task s.current).regs, s.calls s.current,
      ?_, fun p st => List.not_mem_nil, ?_⟩
    · rw [State.save_saved, List.nil_append]
    · rw [State.save_saved]
      exact hf

/-! ### Exits -/

theorem State.exited_task {p q : ℕ} {visited : List ℕ} : (s.exited p q visited).task t =
    (if t = p then fun x : Task =>
      { x with state := .exiting, regs := .wakes (.waitQueue q) } else id)
      (if t ∈ visited then { s.task t with
        next := s.unlinked p t
        ppid := if (s.task t).ppid = (s.task p).pid then 1 else (s.task t).ppid }
          else s.task t) := by
  simp only [State.exited, State.update, Function.update_apply]
  by_cases he : t = p
  · subst he
    simp
  · simp [he]

/-- The task that exits is passed over by the links. -/
theorem Fits.unlinked {p y : ℕ} (h : Inv s) (hne : y ≠ p) (ht : t < y) (hy : y < s.count)
    (hl : (s.task y).state ≠ .exiting) :
    ∃ n, s.unlinked p t = some n ∧ t < n ∧ n ≤ y := by
  obtain ⟨n, hn, htn, hny⟩ := (h.fits t).link y ht hy hl
  unfold State.unlinked
  by_cases hp : n = p
  · subst hp
    rw [if_pos hn]
    obtain ⟨m, hm, hnm, hmy⟩ := (h.fits n).link y (by omega) hy hl
    exact ⟨m, hm, by omega, hmy⟩
  · rw [if_neg (by rw [hn]; simpa using hp)]
    exact ⟨n, hn, htn, hny⟩

theorem Inv.exited (h : Inv s) (p q : ℕ) (visited : List ℕ) : Inv (s.exited p q visited) := by
  have hstate : ∀ t, ((s.exited p q visited).task t).state = if t = p then .exiting
    else (s.task t).state := fun t => by
    rw [State.exited_task]
    split_ifs <;> rfl
  have hsTask : ∀ t, ((s.exited p q visited).task t).sTask = (s.task t).sTask := fun t => by
    rw [State.exited_task]
    split_ifs <;> rfl
  have hnext : ∀ t, ((s.exited p q visited).task t).next = if t ∈ visited then s.unlinked p t
    else (s.task t).next := fun t => by
    rw [State.exited_task]
    split_ifs <;> rfl
  have hother : ∀ t, t ≠ p → ((s.exited p q visited).task t).regs = (s.task t).regs ∧
      ((s.exited p q visited).task t).sleepAddr = (s.task t).sleepAddr := fun t ht => by
    rw [State.exited_task, if_neg ht]
    split_ifs <;> exact ⟨rfl, rfl⟩
  have ho : Older s (s.exited p q visited) := by
    refine ⟨rfl, fun y hy => ?_⟩
    rw [hstate] at hy
    split_ifs at hy with he
    · exact absurd rfl hy
    · exact hy
  constructor
  case current => exact h.current
  case calls => exact h.calls
  case saved =>
    intro t k hk
    rw [hsTask] at hk
    obtain ⟨hlt, above, point, below, hc, hno, hf⟩ := h.saved t k hk
    exact ⟨hlt, above, point, below, hc, hno, hf.older ho⟩
  case fits =>
    intro t
    have hf := h.fits t
    constructor
    case woken =>
      intro a hm
      rw [hstate]
      split_ifs
      · exact .inr rfl
      · exact hf.woken a hm
    case addr =>
      intro a w rest hc hs
      rw [hstate] at hs
      split_ifs at hs with he
      · rcases hs with hs | hs <;> cases hs
      · rw [(hother t he).2]
        exact hf.addr a w rest hc hs
    case top =>
      intro hc
      rw [hstate]
      split_ifs with he
      · exact .inl rfl
      · rw [(hother t he).1]
        exact hf.top hc
    case sleep =>
      intro pc hpc
      by_cases he : t = p
      · rw [State.exited_task, if_pos he] at hpc
        cases hpc
      · rw [(hother t he).1] at hpc
        exact hf.sleep pc hpc
    case apart => exact hf.apart
    case link =>
      intro y hy hc hl
      have hne : y ≠ p := fun he => hl (by rw [hstate, if_pos he])
      rw [hnext]
      split_ifs
      · exact Fits.unlinked h hne hy hc (ho.live y hl)
      · exact hf.link y hy hc (ho.live y hl)
    case bound =>
      intro n hn
      rw [hnext] at hn
      unfold State.unlinked at hn
      split_ifs at hn
      · exact (h.fits p).bound n hn
      · exact hf.bound n hn
      · exact hf.bound n hn

theorem Inv.taskExit (h : Inv s) : wp taskExit (fun _ => Inv) (fun _ _ => True) s := by
  simp only [Signals.taskExit, wp_bind, wp_read, wp_ite]
  split_ifs
  · exact h.tame (fun t => Tame.refl _) rfl h.current rfl rfl rfl
  · split
    · trivial
    · exact h.exited _ _ _

/-! ### Wake-ups -/

theorem topSleeps_wake {a : Addr} (c : List Call) :
    topSleeps (c.map (Call.wake a)) = topSleeps c := by
  cases c with
  | nil => rfl
  | cons d c => cases d <;> rfl

theorem Apart.wake {a : Addr} {c : List Call} (h : Apart c) : Apart (c.map (Call.wake a)) := by
  induction c with
  | nil => trivial
  | cons d c ih => cases d with
    | sleepOn b w => exact ⟨(topSleeps_wake c).trans h.1, ih h.2⟩
    | handler p st => exact ih h

/-- What was woken was woken before, or is woken now. -/
theorem mem_wake {a b : Addr} (hm : .sleepOn b true ∈ c.map (Call.wake a)) :
    .sleepOn b true ∈ c ∨ .sleepOn a false ∈ c := by
  obtain ⟨d, hd, he⟩ := List.mem_map.mp hm
  cases d with
  | handler p st => cases he
  | sleepOn b' w =>
    obtain ⟨rfl, hw⟩ := Call.sleepOn.inj he
    cases w with
    | true => exact .inl hd
    | false =>
      have hb : b' = a := by simpa using hw
      exact .inr (hb ▸ hd)

/-- A `wakeup` keeps what the record says, if it says that the task runs when one of its calls is
woken now. -/
theorem Fits.wake {a : Addr} (h : Fits s t x c)
    (hx : .sleepOn a false ∈ c → x.state = .running ∨ x.state = .exiting) :
    Fits s t x (c.map (Call.wake a)) := by
  constructor
  case woken =>
    intro b hm
    rcases mem_wake hm with hm | hm
    · exact h.woken b hm
    · exact hx hm
  case addr =>
    intro b w rest hc hs
    obtain ⟨d, c', rfl, hd, -⟩ := List.map_eq_cons_iff.mp hc
    cases d with
    | handler p st => cases hd
    | sleepOn b' w' =>
      obtain ⟨rfl, -⟩ := Call.sleepOn.inj hd
      exact h.addr b' w' c' rfl hs
  case top =>
    rw [topSleeps_wake]
    exact h.top
  case sleep =>
    rw [topSleeps_wake]
    exact h.sleep
  case apart => exact h.apart.wake
  case link => exact h.link
  case bound => exact h.bound

theorem Inv.wakeup {a : Addr} (h : Inv s) (hh : (Op.wakeup a).Heard s) :
    wp (wakeup a) (fun _ => Inv) (fun _ _ => False) s := by
  have htame : ∀ t,
    Tame (s.task t)
      (if t ∈ s.queue ∧ (s.task t).state = .sleeping ∧ (s.task t).sleepAddr = some a then
      { s.task t with state := .running, sleepAddr := none, sleepEndTick := 0 } else s.task
        t) := fun t => by
    split_ifs with hc
    · have hne : (s.task t).state ≠ .exiting := by
        rw [hc.2.1]
        exact TaskState.noConfusion
      exact ⟨rfl, rfl, fun _ => hne, fun _ => .inl rfl, fun hs =>
        (by rcases hs with hs | hs <;> cases hs),
        fun he => absurd he hne, fun _ => .rfl⟩
    · exact Tame.refl _
  simp only [Signals.wakeup, wp_modify]
  have ho : Older s { s with
      task := fun t => if t ∈ s.queue ∧ (s.task t).state = .sleeping ∧
        (s.task t).sleepAddr = some a then
        { s.task t with state := .running, sleepAddr := none, sleepEndTick := 0 } else s.task t
      switchLocked := false
      calls := fun t => (s.calls t).map (Call.wake a) } := ⟨rfl, fun y => (htame y).live⟩
  constructor
  case current => exact h.current
  case calls =>
    intro t ht
    exact h.calls t fun hn => ht (by simp [hn])
  case fits =>
    intro t
    refine (((h.fits t).tame (htame t)).wake fun hm => ?_).older ho
    obtain ⟨above, below, hc⟩ := List.append_of_mem hm
    obtain ⟨haw, hsl, -⟩ := hh t false above below hc
    split_ifs with hcond
    · exact .inl rfl
    · cases hst : (s.task t).state with
      | running => exact .inl rfl
      | exiting => exact .inr rfl
      | awaken => exact absurd hst haw
      | sleeping =>
        obtain rfl := hsl hst
        have haddr := (h.fits t).addr a false below hc (.inl hst)
        have hlt := h.calls t (by rw [hc, List.nil_append]; exact List.cons_ne_nil _ _)
        have hne : (s.task t).state ≠ .exiting := by rw [hst]; exact TaskState.noConfusion
        exact absurd ⟨h.mem_queue hlt hne, hst, haddr⟩ hcond
  case saved =>
    intro t k hk
    rw [(htame t).sTask] at hk
    obtain ⟨hlt, above, point, below, hc, hno, hf⟩ := h.saved t k hk
    refine ⟨hlt, above.map (Call.wake a), point, below.map (Call.wake a), ?_, fun p st hm => ?_, ?_⟩
    · show (s.calls t).map (Call.wake a) = _
      rw [hc, List.map_append, List.map_cons]
      rfl
    · obtain ⟨d, hd, he⟩ := List.mem_map.mp hm
      cases d with
      | sleepOn b w => cases he
      | handler p' st' =>
        cases he
        exact hno p st hd
    · refine (hf.wake fun hm => ?_).older ho
      obtain ⟨between, rest, hb⟩ := List.append_of_mem hm
      obtain ⟨-, -, hrun⟩ :=
        hh t false (above ++ .handler point (s.saved k).state :: between) rest (by
        rw [hc, hb, List.append_assoc, List.cons_append])
      exact .inl (hrun point _ (List.mem_append_right _ (List.mem_cons_self ..)))

/-! ### Switches -/

theorem Inv.awake (h : Inv s) (t : ℕ) : Inv (s.awake t) := by
  refine h.tame_update t ?_
  split_ifs with hs
  · have hne : (s.task t).state ≠ .exiting := by
      rw [hs]
      exact TaskState.noConfusion
    exact ⟨rfl, rfl, fun _ =>
      hne, fun ho => by rw [hs] at ho; simp at ho, fun _ => ⟨.inl hs, rfl⟩, fun he => absurd he hne,
      fun _ => .rfl⟩
  · exact Tame.refl _

/-- A state that differs in what the invariant does not read. -/
theorem Inv.same (h : Inv s) (htask : s'.task = s.task) (hcount : s'.count = s.count)
    (hcur : s'.current < s.count) (hcalls : s'.calls = s.calls) (hsaved : s'.saved = s.saved)
    (hn : s'.savedCount = s.savedCount) :
    Inv s' :=
  h.tame (fun t => by rw [htask]; exact Tame.refl _) hcount hcur hcalls hsaved hn

theorem Inv.processSignals (h : Inv s) (sigs : List Signal) :
    wp (processSignals sigs) (fun _ => Inv) (fun _ _ => True) s := by
  refine wp_processSignals sigs (fun s t h => h.awake t)
    (fun s sig h => h.same rfl rfl h.current rfl rfl rfl)
    (fun s h => h.intReturn.mono (fun _ _ => id) fun _ _ _ => trivial) (fun s h _ => ?_)
    (fun s f h _ => (h.enterHandler f).mono (fun _ _ => id) fun _ _ _ => trivial)
      (fun _ => trivial) h
  exact h.taskExit.mono (fun _ s' hs' => by split_ifs <;> exact hs') fun _ _ => id

/-! ### Every run -/

/-- A change of what the calls do not depend on. -/
theorem Tame.of_eq (hnext : y.next = x.next) (hsTask : y.sTask = x.sTask)
    (hstate : y.state = x.state) (haddr : y.sleepAddr = x.sleepAddr)
    (hregs : ∀ pc, x.regs = .sleep pc ↔ y.regs = .sleep pc) :
    Tame x y := by
  constructor
  case next => exact hnext
  case sTask => exact hsTask
  case live =>
    rw [hstate]
    exact id
  case woken =>
    rw [hstate]
    exact id
  case addr =>
    rw [hstate, haddr]
    exact fun h => ⟨h, rfl⟩
  case exiting =>
    rw [hstate]
    exact id
  case regs => exact hregs

theorem Inv.wakeCheck (h : Inv s) (t : ℕ) :
    wp (wakeCheck t) (fun _ => Inv) (fun _ _ => False) s := by
  simp only [Signals.wakeCheck, wp_modify]
  refine h.tame_update t ?_
  split_ifs with hs
  · have hne : (s.task t).state ≠ .exiting := by
      rw [hs.1]
      exact TaskState.noConfusion
    exact ⟨rfl, rfl, fun _ => hne, fun _ => .inl rfl, fun hs =>
      (by rcases hs with hs | hs <;> cases hs),
      fun he => absurd he hne, fun _ => .rfl⟩
  · exact Tame.refl _

theorem Inv.grow (h : Inv s) (slots : List (Option ℕ)) : Inv (s.grow slots) := by
  have htame :
    Inv (s.update s.current fun x => { x with files := s.arrayCount, numFiles := slots.length }) :=
    h.tame_update s.current (Tame.of_eq rfl rfl rfl rfl fun _ => .rfl)
  exact htame.same rfl rfl h.current rfl rfl rfl

theorem Inv.sysOpen (h : Inv s) (file : Option ℕ) :
    wp (sysOpen file) (fun _ => Inv) (fun _ _ => False) s := by
  simp only [Signals.sysOpen, wp_modify]
  have hgrown : Inv (if s.Full then s.grow (fdAlloc s.slots).2 else s) := by
    split_ifs
    · exact h.grow _
    · exact h
  split
  · exact hgrown
  · exact hgrown.same rfl rfl hgrown.current rfl rfl rfl

/-- A step among the tasks that are there keeps the invariant, if a wake-up is heard. -/
theorem Op.exec_spec {op : Op} (h : Inv s) (ha : op.Allowed s) (hf : op ≠ .fork) (hh : op.Heard s) :
    wp op.exec (fun _ => Inv) (fun _ _ => True) s := by
  cases op with
  | sleepOn a => exact (h.sleepOn ha hh).mono (fun _ _ => id) fun _ _ _ => trivial
  | sleepOnms a ms =>
    show wp (Signals.sleepOnms a ms) _ _ s
    rw [Signals.sleepOnms, wp_bind, wp_modify]
    have hs : ∀ n, Inv (s.update s.current fun x => { x with sleepEndTick := n }) := fun n =>
      h.tame_update s.current (Tame.of_eq rfl rfl rfl rfl fun _ => .rfl)
    refine ((hs _).sleepOn ?_ hh).mono (fun _ _ => id) fun _ _ _ => trivial
    have hruns : s.Runs := ha
    simpa [State.Runs, State.update] using hruns
  | wakeup a =>
    show wp (do Signals.wakeup a; modify _) _ _ s
    rw [wp_bind]
    refine (h.wakeup hh).mono (fun _ s' h' => ?_) fun _ _ _ => trivial
    rw [wp_modify]
    refine h'.tame_update s'.current (Tame.of_eq rfl rfl rfl rfl fun pc => ?_)
    split_ifs with hr
    · rw [hr]
      simp
    · rfl
  | wakeCheck t => exact (h.wakeCheck t).mono (fun _ _ => id) fun _ _ _ => trivial
  | tick => exact h.same rfl rfl h.current rfl rfl rfl
  | fork => exact absurd rfl hf
  | exit => exact h.taskExit
  | signal signum handler =>
    show wp (Signals.signal signum handler) _ _ s
    simp only [Signals.signal, wp_modify]
    split_ifs
    · exact h.tame_update s.current (Tame.of_eq rfl rfl rfl rfl fun _ => .rfl)
    · exact h
  | kill pid signum =>
    show wp (Signals.kill pid signum) _ _ s
    simp only [Signals.kill, wp_modify]
    split_ifs
    · exact h.same rfl rfl h.current rfl rfl rfl
    · exact h
  | switch n =>
    show wp (taskSwitchInt n) _ _ s
    rw [taskSwitchInt, wp_bind, wp_modify, wp_bind, wp_read]
    have hn : n < s.count := by
      have hcase := ha.2
      split_ifs at hcase
      · rw [hcase]
        exact h.current
      · exact h.queue_lt hcase.1
    have hcur : Inv { s with current := n } := h.same rfl rfl hn rfl rfl rfl
    exact hcur.processSignals _
  | handlerReturn => exact h.signalHandlerReturn ha.1
  | «open» file => exact (h.sysOpen file).mono (fun _ _ => id) fun _ _ _ => trivial
  | close fd => exact h.same rfl rfl h.current rfl rfl rfl
  | sbrk e => exact h.same rfl rfl h.current rfl rfl rfl
  | compute pc =>
    obtain ⟨⟨pc', hpc⟩, -⟩ := ha
    exact h.tame_update s.current (Tame.of_eq rfl rfl rfl rfl fun pc => by simp [hpc])

/-- **Wake-ups and signals**: from tasks that all run, in every run in which every wake-up is
heard, and no handler sleeps above a `sleep_on` that was woken, no wake-up is swallowed. -/
theorem no_wakeup_swallowed {s₀ : State} (h₀ : Ready s₀)
    (hr : Reach (Step fun s op => op ≠ .fork ∧ op.Heard s) s₀ s) : s.NoSwallow := by
  have hinv : Inv s := hr.invariant
    (fun s s' h ⟨_, ha, ⟨hf, hh⟩, he⟩ => (Op.exec_spec h ha hf hh).ok he) h₀.inv
  exact hinv.noSwallow

end

/-- The state after some steps. -/
def State.after (s : State) (ops : List Op) : State := ops.foldl (fun s op => (op.exec s).state) s

theorem Step.after {C : State → Op → Prop} {s₀ s : State} (hr : Reach (Step C) s₀ s) (op : Op)
    (ha : op.Allowed s) (hc : C s op)
    (hret : (op.exec s).returned = true) : Reach (Step C) s₀ (s.after [op]) :=
  hr.tail ⟨op, ha, hc, Outcome.eq_ok_of_returned hret⟩

/-- Two tasks, of which the second, which is the current one, has a handler for `SIGINT`. -/
def pair : State where
  task t := ⟨if t = 0 then 1 else 2, 1, if t = 0 then some 1 else none, .running, none, 0, t,
    fun n => if n = 2 then .user 0 else .dfl, t, t, taskInitialNumFiles, none, .run 0⟩
  count := 2
  nextPid := 3
  current := 1
  switchLocked := false
  timerTicks := 0
  signals := []
  saved _ := ⟨0, 0, none, .exiting, none, 0, 0, fun _ => .dfl, 0, 0, 0, none, .gone⟩
  savedCount := 0
  lists _ := []
  heaps _ := 0
  arrays _ := List.replicate taskInitialNumFiles none
  arrayCount := 2
  calls _ := []

theorem pair_ready : Ready pair where
  current := by decide
  linked t ht := by
    obtain rfl : t = 0 := by
      have : t + 1 < 2 := ht
      omega
    rfl
  bound t n hn := by
    show n < 2
    simp only [pair] at hn
    split_ifs at hn
    cases hn
    omega
  state _ := rfl
  regs _ := ⟨0, rfl⟩
  sTask _ := rfl
  calls _ := rfl

/-- The second task of the pair sleeps, and the first runs. -/
def pairAsleep : State := (pair.after [.sleepOn (.other 5)]).after [.switch 0]

theorem reach_pairAsleep {C : State → Op → Prop} (h₁ : C pair (.sleepOn (.other 5)))
    (h₂ : C (pair.after [.sleepOn (.other 5)]) (.switch 0)) : Reach (Step C) pair pairAsleep := by
  have hsleep :=
    Step.after (C := C) (.refl (a := pair)) (.sleepOn (.other 5)) ⟨⟨0, rfl⟩, .inl rfl⟩ h₁ rfl
  exact Step.after hsleep (.switch 0) ⟨fun _ => Point.noConfusion, show _ ∧
    _ from ⟨by decide, .inl rfl⟩⟩ h₂ rfl

theorem pairAsleep_calls (t : ℕ) :
    pairAsleep.calls t = if t = 1 then [.sleepOn (.other 5) false] else [] := by
  show Function.update (fun _ => []) 1 _ t = _
  rw [Function.update_apply]
  rfl

/-- The first task wakes the second. -/
theorem no_wakeup_swallowed_pair : ∃ s, Reach (Step fun s op => op ≠ .fork ∧ op.Heard s) pair s ∧
    .sleepOn (.other 5) true ∈ s.calls 1 ∧ s.NoSwallow := by
  have h₂ : Reach (Step fun s op => op ≠ .fork ∧ op.Heard s) pair pairAsleep :=
    reach_pairAsleep ⟨Op.noConfusion, fun _ => List.not_mem_nil⟩ ⟨Op.noConfusion, trivial⟩
  have h₃ := Step.after h₂ (.wakeup (.other 5)) trivial
    ⟨Op.noConfusion, fun t woken above below hc => ?_⟩ rfl
  · exact ⟨_, h₃, List.mem_cons_self .., no_wakeup_swallowed pair_ready h₃⟩
  · rw [pairAsleep_calls] at hc
    split_ifs at hc with ht
    · subst ht
      cases above with
      | nil => exact ⟨TaskState.noConfusion, fun _ => rfl, fun _ _ hm => absurd hm List.not_mem_nil⟩
      | cons d above => exact absurd (List.cons.inj hc).2.symm (by simp)
    · exact absurd hc.symm (by simp)

/-- The second task is sent a signal before the wake-up. -/
theorem wakeup_swallowed : ∃ s, Reach (Step fun _ op => op ≠ .fork) pair s ∧ ¬s.NoSwallow := by
  have h₂ : Reach (Step fun _ op => op ≠ .fork) pair pairAsleep :=
    reach_pairAsleep Op.noConfusion Op.noConfusion
  have h₃ := Step.after h₂ (.kill 2 2) trivial Op.noConfusion rfl
  have h₄ := Step.after h₃ (.switch 0) ⟨fun _ => Point.noConfusion, show _ ∧
    _ from ⟨by decide, .inl rfl⟩⟩ Op.noConfusion rfl
  have h₅ := Step.after h₄ (.wakeup (.other 5)) trivial Op.noConfusion rfl
  have h₆ := Step.after h₅ (.switch 1) ⟨fun _ => Point.noConfusion, show _ ∧
    _ from ⟨by decide, .inr rfl⟩⟩ Op.noConfusion rfl
  have h₇ := Step.after h₆ .handlerReturn ⟨⟨⟨0, rfl⟩, .inr rfl⟩, _, _, List.mem_cons_self ..⟩
    Op.noConfusion rfl
  exact ⟨_, h₇, fun h => h 1 (.other 5) (List.mem_cons_self ..) rfl⟩

end Cosiris.Signals
