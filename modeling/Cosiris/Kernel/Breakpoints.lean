import Cosiris.Kernel.Files
import Cosiris.Lib.Runs
import Mathlib.Data.Int.Notation
import Mathlib.Logic.Function.Basic

/-!
# Breakpoints

`set_break_point` and `reset_break_point` of `kdbg.c`: a breakpoint is the byte `0xCC` in
memory, and an entry of a table that has the byte that was there. An entry is free if its
address is `0`.

A breakpoint that is set where there is one already saves `0xCC`, and the two resets take
the entries in the order of the table, so that the byte of the program is lost. As long as
this does not happen, and address `0` is left alone, the memory is that of the program but
for the breakpoints that are set.
-/

namespace Cosiris.Debug

open Function Prog

/-- `MAX_BREAK_POINTS`. -/
def maxBreakPoints : ℕ := 64

/-- `BREAK_OPC`. -/
def breakOpc : UInt8 := 0xCC

/-- `struct break_point`. -/
structure BreakPoint where
  addr : UInt32
  val : UInt8
  pid : ℤ
  deriving DecidableEq

/-- An entry after `memset`. -/
def BreakPoint.zero : BreakPoint := ⟨0, 0, 0⟩

/-- The table, the memory in which breakpoints are set, the pages that are mapped, and the pid of
the current task. The table itself is kept apart from the memory. -/
structure Kdbg where
  bpts : List BreakPoint
  mem : UInt32 → UInt8
  mapped : UInt32 → Bool
  pid : ℤ

/-- Write a byte, which faults if its page is not mapped. -/
def poke (addr : UInt32) (val : UInt8) : Prog Halt Kdbg Unit := do
  let k ← read
  if !k.mapped (addr &&& 0xFFFFF000) then halt .fault
  modify fun k => { k with mem := update k.mem addr val }

/-- `set_break_point`: whether it has set one. -/
def setBreakPoint (addr : UInt32) : Prog Halt Kdbg Bool := do
  let k ← read
  let i := k.bpts.findIdx fun b => b.addr = 0
  if i = k.bpts.length then return false
  else if !k.mapped (addr &&& 0xFFFFF000) then return false
  else
    modify fun k => { k with bpts := k.bpts.set i ⟨addr, k.mem addr, k.pid⟩ }
    poke addr breakOpc
    return true

/-- `reset_break_point`: whether it has reset one. -/
def resetBreakPoint (addr : UInt32) : Prog Halt Kdbg Bool := do
  let k ← read
  match k.bpts.find? fun b => b.addr = addr with
  | none => return false
  | some b =>
    poke b.addr b.val
    modify fun k =>
      { k with bpts := k.bpts.set (k.bpts.findIdx fun b => b.addr = addr) BreakPoint.zero }
    return true

/-! ### Runs -/

/-- A call of the debugger. -/
inductive Op where
  | set (addr : UInt32)
  | reset (addr : UInt32)
  deriving DecidableEq

/-- The call. -/
def Op.exec : Op → Prog Halt Kdbg Bool
  | set addr => setBreakPoint addr
  | reset addr => resetBreakPoint addr

/-- The calls of a session that have been successful, for each address. -/
structure Session where
  kdbg : Kdbg
  sets : UInt32 → ℕ
  resets : UInt32 → ℕ

/-- The session after a call that has returned `r`. -/
def Session.note (s : Session) (op : Op) (r : Bool) (k : Kdbg) : Session :=
  match op with
  | .set addr =>
      { s with kdbg := k, sets := if r then update s.sets addr (s.sets addr + 1) else s.sets }
  | .reset addr =>
      { s with kdbg := k,
               resets := if r then update s.resets addr (s.resets addr + 1) else s.resets }

/-- No breakpoint has been set yet. -/
def Session.start (mem : UInt32 → UInt8) (mapped : UInt32 → Bool) (pid : ℤ) : Session :=
  ⟨⟨List.replicate maxBreakPoints BreakPoint.zero, mem, mapped, pid⟩, fun _ => 0, fun _ => 0⟩

/-- A call that meets the condition `P` returns. -/
def Session.Step (P : Kdbg → Op → Prop) (s t : Session) : Prop :=
  ∃ op r k, P s.kdbg op ∧ op.exec s.kdbg = .ok r k ∧ t = s.note op r k

/-- A breakpoint is set at the address. -/
def Kdbg.Has (k : Kdbg) (a : UInt32) : Prop := a ≠ 0 ∧ ∃ b ∈ k.bpts, b.addr = a

instance (k : Kdbg) (a : UInt32) : Decidable (k.Has a) := inferInstanceAs (Decidable (_ ∧ _))

/-- The address is not `0`, and no breakpoint is set where there is one. -/
def Op.Careful (k : Kdbg) : Op → Prop
  | set addr => addr ≠ 0 ∧ ¬ k.Has addr
  | reset addr => addr ≠ 0

instance (k : Kdbg) (op : Op) : Decidable (op.Careful k) :=
  match op with
  | .set _ => inferInstanceAs (Decidable (_ ∧ _))
  | .reset _ => inferInstanceAs (Decidable (_ ≠ _))

/-- The memory is that of the program but for the breakpoints, whose entries have the bytes of the
program, and there is one entry for each. -/
structure Session.Inv (orig : UInt32 → UInt8) (s : Session) : Prop where
  mem : ∀ a, s.kdbg.mem a = if s.kdbg.Has a then breakOpc else orig a
  saved : ∀ b ∈ s.kdbg.bpts, b.addr ≠ 0 → b.val = orig b.addr
  once : ∀ (i j : ℕ) (b b' : BreakPoint), s.kdbg.bpts[i]? = some b → s.kdbg.bpts[j]? = some b' →
      b.addr = b'.addr → b.addr ≠ 0 → i = j
  count : ∀ a, s.sets a = s.resets a + if s.kdbg.Has a then 1 else 0

/-! ### What the calls do -/

/-- Entry `i` is taken for a breakpoint at `a`. -/
def Kdbg.fill (k : Kdbg) (i : ℕ) (a : UInt32) : Kdbg :=
  { k with bpts := k.bpts.set i ⟨a, k.mem a, k.pid⟩, mem := update k.mem a breakOpc }

/-- Entry `i` is given up, and the byte that it has goes back to `a`. -/
def Kdbg.clear (k : Kdbg) (i : ℕ) (a : UInt32) (val : UInt8) : Kdbg :=
  { k with bpts := k.bpts.set i BreakPoint.zero, mem := update k.mem a val }

@[simp] theorem Session.note_kdbg (s : Session) (op : Op) (r : Bool) (k : Kdbg) :
    (s.note op r k).kdbg = k := by
  cases op <;> rfl

section

variable {k k' : Kdbg} {a : UInt32} {r : Bool}

/-- What `set_break_point` does. -/
theorem set_cases (h : setBreakPoint a k = .ok r k') : (r = false ∧ k' = k) ∨
    (r = true ∧ ∃ i b, k.bpts[i]? = some b ∧ b.addr = 0 ∧ k' = k.fill i a) := by
  have hwp : wp (setBreakPoint a) (fun r k' => (r = false ∧ k' = k) ∨
      (r = true ∧ ∃ i b, k.bpts[i]? = some b ∧ b.addr = 0 ∧ k' = k.fill i a))
        (fun _ _ => True) k := by
    simp only [setBreakPoint, poke, wp_bind, wp_read, wp_ite, wp_pure, wp_modify, wp_halt]
    split_ifs with hi hm
    · exact .inl ⟨trivial, trivial⟩
    · exact .inl ⟨trivial, trivial⟩
    · have hlt : k.bpts.findIdx (fun b => b.addr = 0) < k.bpts.length := by
        have : k.bpts.findIdx (fun b => b.addr = 0) ≤ k.bpts.length := List.findIdx_le_length
        omega
      have hz := List.findIdx_getElem (w := hlt)
      exact .inr ⟨trivial, _, _, List.getElem?_eq_getElem hlt, of_decide_eq_true hz, rfl⟩
  exact hwp.ok h

/-- What `reset_break_point` does. -/
theorem reset_cases (h : resetBreakPoint a k = .ok r k') : (r = false ∧ k' = k) ∨
    (r = true ∧ ∃ i b, k.bpts[i]? = some b ∧ b.addr = a ∧ k' = k.clear i a b.val) := by
  have hwp : wp (resetBreakPoint a) (fun r k' => (r = false ∧ k' = k) ∨
      (r = true ∧ ∃ i b, k.bpts[i]? = some b ∧ b.addr = a ∧ k' = k.clear i a b.val))
        (fun _ _ => True) k := by
    simp only [resetBreakPoint, wp_bind, wp_read]
    cases hf : k.bpts.find? fun b => b.addr = a with
    | none => exact .inl ⟨rfl, rfl⟩
    | some b =>
      have hb : b.addr = a := by simpa using List.find?_some hf
      have hi : k.bpts[k.bpts.findIdx fun b => b.addr = a]? = some b := by
        rw [← List.find?_eq_getElem?_findIdx]
        exact hf
      simp only [poke, wp_bind, wp_read, wp_ite, wp_halt, wp_modify, wp_pure, hb]
      split_ifs
      exact .inr ⟨trivial, _, b, hi, hb, rfl⟩
  exact hwp.ok h

/-- The entries after one of them has been replaced. -/
theorem mem_set {l : List BreakPoint} {i : ℕ} {b x y : BreakPoint} (hi : l[i]? = some b) :
    y ∈ l.set i x ↔ y = x ∨ ∃ j, j ≠ i ∧ l[j]? = some y := by
  have hlt : i < l.length := (List.getElem?_eq_some_iff.mp hi).1
  rw [List.mem_iff_getElem?]
  constructor
  · rintro ⟨j, hj⟩
    by_cases hji : j = i
    · subst hji
      rw [List.getElem?_set_self hlt] at hj
      exact .inl (Option.some.inj hj).symm
    · rw [List.getElem?_set_ne (Ne.symm hji)] at hj
      exact .inr ⟨j, hji, hj⟩
  · rintro (rfl | ⟨j, hji, hj⟩)
    · exact ⟨i, List.getElem?_set_self hlt⟩
    · exact ⟨j, by rw [List.getElem?_set_ne (Ne.symm hji)]; exact hj⟩

/-- A free entry is filled: one more breakpoint. -/
theorem has_fill {i : ℕ} {b : BreakPoint} (hi : k.bpts[i]? = some b) (hb : b.addr = 0) (ha : a ≠ 0)
    (x : UInt32) :
    (k.fill i a).Has x ↔ x = a ∨ k.Has x := by
  unfold Kdbg.Has Kdbg.fill
  constructor
  · rintro ⟨hx, y, hy, rfl⟩
    rcases (mem_set hi).mp hy with rfl | ⟨j, -, hj⟩
    · exact .inl rfl
    · exact .inr ⟨hx, y, List.mem_of_getElem? hj, rfl⟩
  · rintro (rfl | ⟨hx, y, hy, rfl⟩)
    · exact ⟨ha, _, (mem_set hi).mpr (.inl rfl), rfl⟩
    · obtain ⟨j, hj⟩ := List.mem_iff_getElem?.mp hy
      have hji : j ≠ i := by
        rintro rfl
        cases hj.symm.trans hi
        exact hx hb
      exact ⟨hx, y, (mem_set hi).mpr (.inr ⟨j, hji, hj⟩), rfl⟩

/-- An entry is freed that is the only one for its address: one breakpoint less. -/
theorem has_clear {i : ℕ} {b : BreakPoint} {v : UInt8} (hi : k.bpts[i]? = some b) (hb : b.addr = a)
    (honce : ∀ (j : ℕ) (y : BreakPoint), k.bpts[j]? = some y → y.addr = a → j = i) (x : UInt32) :
    (k.clear i a v).Has x ↔ x ≠ a ∧ k.Has x := by
  unfold Kdbg.Has Kdbg.clear
  constructor
  · rintro ⟨hx, y, hy, rfl⟩
    rcases (mem_set hi).mp hy with rfl | ⟨j, hji, hj⟩
    · exact absurd rfl hx
    · exact ⟨fun e => hji (honce j y hj e), hx, y, List.mem_of_getElem? hj, rfl⟩
  · rintro ⟨hxa, hx, y, hy, rfl⟩
    obtain ⟨j, hj⟩ := List.mem_iff_getElem?.mp hy
    have hji : j ≠ i := by
      rintro rfl
      cases hj.symm.trans hi
      exact hxa hb
    exact ⟨hx, y, (mem_set hi).mpr (.inr ⟨j, hji, hj⟩), rfl⟩

end

section

variable {orig : UInt32 → UInt8} {s t : Session}

theorem Session.start_inv (mapped : UInt32 → Bool) (pid : ℤ) :
    (Session.start orig mapped pid).Inv orig := by
  have hzero : ∀ b ∈ (Session.start orig mapped pid).kdbg.bpts, b.addr = 0 := by
    intro b hb
    rw [List.eq_of_mem_replicate hb]
    rfl
  have hnone : ∀ a, ¬ (Session.start orig mapped pid).kdbg.Has a := by
    rintro a ⟨ha, b, hb, rfl⟩
    exact ha (hzero b hb)
  refine ⟨fun a => ?_, fun b hb h0 => absurd (hzero b hb) h0,
    fun i j b b' hi _ _ h0 => ?_, fun a => ?_⟩
  · rw [if_neg (hnone a)]
    rfl
  · exact absurd (hzero b (List.mem_of_getElem? hi)) h0
  · rw [if_neg (hnone a)]
    rfl

/-- A breakpoint is set. -/
theorem Session.Inv.set {i : ℕ} {b : BreakPoint} {a : UInt32} (h : s.Inv orig)
    (hi : s.kdbg.bpts[i]? = some b)
    (hb : b.addr = 0) (ha : a ≠ 0) (hnew : ¬ s.kdbg.Has a) :
    (s.note (.set a) true (s.kdbg.fill i a)).Inv orig := by
  have horig : s.kdbg.mem a = orig a := by rw [h.mem a, if_neg hnew]
  have hhas := has_fill hi hb ha
  have hself : (s.kdbg.fill i a).Has a := (hhas a).mpr (.inl rfl)
  have hother : ∀ x, x ≠ a →
    (s.kdbg.Has x ↔ (s.kdbg.fill i a).Has x) := fun x hx => by rw [hhas x, or_iff_right hx]
  refine ⟨fun x => ?_, fun y hy h0 => ?_, fun j j' y y' hj hj' he h0 => ?_, fun x => ?_⟩
  · rw [Session.note_kdbg]
    show update s.kdbg.mem a breakOpc x = _
    by_cases hx : x = a
    · rw [hx, update_self, if_pos hself]
    · rw [update_of_ne hx, h.mem x]
      exact if_congr (hother x hx) rfl rfl
  · rw [Session.note_kdbg] at hy
    rcases (mem_set hi).mp hy with rfl | ⟨j, -, hj⟩
    · exact horig
    · exact h.saved y (List.mem_of_getElem? hj) h0
  · rw [Session.note_kdbg] at hj hj'
    have hold : ∀ {j : ℕ} {y : BreakPoint}, (s.kdbg.fill i a).bpts[j]? = some y →
        (j = i ∧ y.addr = a) ∨ (j ≠ i ∧ s.kdbg.bpts[j]? = some y) := by
      intro j y hj
      unfold Kdbg.fill at hj
      by_cases hji : j = i
      · subst hji
        rw [List.getElem?_set_self (List.getElem?_eq_some_iff.mp hi).1] at hj
        cases hj
        exact .inl ⟨rfl, rfl⟩
      · rw [List.getElem?_set_ne (Ne.symm hji)] at hj
        exact .inr ⟨hji, hj⟩
    have hfresh : ∀ {j : ℕ} {y : BreakPoint}, s.kdbg.bpts[j]? = some y → y.addr ≠ a :=
      fun hj e => hnew ⟨ha, _, List.mem_of_getElem? hj, e⟩
    rcases hold hj with ⟨hji, ha₁⟩ | ⟨-, hj⟩ <;> rcases hold hj' with ⟨hji', ha₂⟩ | ⟨-, hj'⟩
    · rw [hji, hji']
    · exact absurd (he.symm.trans ha₁) (hfresh hj')
    · exact absurd (he.trans ha₂) (hfresh hj)
    · exact h.once j j' y y' hj hj' he h0
  · rw [Session.note_kdbg]
    show update s.sets a (s.sets a + 1) x = s.resets x + _
    have hold := h.count x
    by_cases hx : x = a
    · subst hx
      rw [if_neg hnew] at hold
      rw [update_self, if_pos hself, hold]
    · rw [update_of_ne hx, hold]
      congr 1
      exact if_congr (hother x hx) rfl rfl

/-- A breakpoint is reset. -/
theorem Session.Inv.reset {i : ℕ} {b : BreakPoint} {a : UInt32} (h : s.Inv orig)
    (hi : s.kdbg.bpts[i]? = some b) (hb : b.addr = a)
    (ha : a ≠ 0) : (s.note (.reset a) true (s.kdbg.clear i a b.val)).Inv orig := by
  have honce : ∀ (j : ℕ) (y : BreakPoint), s.kdbg.bpts[j]? = some y → y.addr = a → j = i :=
    fun j y hj hy => h.once j i y b hj hi (hy.trans hb.symm) (by rwa [hy])
  have hhas := has_clear (v := b.val) hi hb honce
  have hset : s.kdbg.Has a := ⟨ha, b, List.mem_of_getElem? hi, hb⟩
  have hself : ¬ (s.kdbg.clear i a b.val).Has a := fun hc => ((hhas a).mp hc).1 rfl
  have hother : ∀ x, x ≠ a → (s.kdbg.Has x ↔ (s.kdbg.clear i a b.val).Has x) :=
    fun x hx => by rw [hhas x, and_iff_right hx]
  have hval : b.val = orig a := by rw [h.saved b (List.mem_of_getElem? hi) (by rwa [hb]), hb]
  refine ⟨fun x => ?_, fun y hy h0 => ?_, fun j j' y y' hj hj' he h0 => ?_, fun x => ?_⟩
  · rw [Session.note_kdbg]
    show update s.kdbg.mem a b.val x = _
    by_cases hx : x = a
    · rw [hx, update_self, if_neg hself, hval]
    · rw [update_of_ne hx, h.mem x]
      exact if_congr (hother x hx) rfl rfl
  · rw [Session.note_kdbg] at hy
    rcases (mem_set hi).mp hy with rfl | ⟨j, -, hj⟩
    · exact absurd rfl h0
    · exact h.saved y (List.mem_of_getElem? hj) h0
  · rw [Session.note_kdbg] at hj hj'
    have hold : ∀ {j : ℕ} {y : BreakPoint}, (s.kdbg.clear i a b.val).bpts[j]? =
      some y → y.addr ≠ 0 →
        s.kdbg.bpts[j]? = some y := by
      intro j y hj hy
      unfold Kdbg.clear at hj
      by_cases hji : j = i
      · subst hji
        rw [List.getElem?_set_self (List.getElem?_eq_some_iff.mp hi).1] at hj
        cases hj
        exact absurd rfl hy
      · rwa [List.getElem?_set_ne (Ne.symm hji)] at hj
    exact h.once j j' y y' (hold hj h0) (hold hj' (he ▸ h0)) he h0
  · rw [Session.note_kdbg]
    show s.sets x = update s.resets a (s.resets a + 1) x + _
    have hold := h.count x
    by_cases hx : x = a
    · subst hx
      rw [if_pos hset] at hold
      rw [update_self, if_neg hself, hold]
    · rw [update_of_ne hx, hold]
      congr 1
      exact if_congr (hother x hx) rfl rfl

theorem Session.Inv.step (h : s.Inv orig) (hs : Session.Step Op.Careful s t) : t.Inv orig := by
  obtain ⟨op, r, k, hc, hx, rfl⟩ := hs
  cases op with
  | set a =>
    rcases set_cases hx with ⟨rfl, rfl⟩ | ⟨rfl, i, b, hi, hb, rfl⟩
    · exact h
    · exact h.set hi hb hc.1 hc.2
  | reset a =>
    rcases reset_cases hx with ⟨rfl, rfl⟩ | ⟨rfl, i, b, hi, hb, rfl⟩
    · exact h
    · exact h.reset hi hb hc

/-- **Breakpoints are reversible**: after every call of a run that sets no breakpoint where there is
one and leaves address `0` alone, an address whose breakpoints have all been reset has its byte
back, and any other has the breakpoint. -/
theorem breakpoints_reversible (mapped : UInt32 → Bool) (pid : ℤ)
    (hrun : Reach (Session.Step Op.Careful) (Session.start orig mapped pid) s) :
    (∀ a, s.resets a ≤ s.sets a ∧ s.kdbg.mem a = if s.sets a = s.resets a then orig a
      else breakOpc) ∧
      ((∀ a, s.sets a = s.resets a) → s.kdbg.mem = orig) := by
  have hinv : s.Inv orig :=
    Reach.invariant (fun _ _ h hs => h.step hs) (Session.start_inv mapped pid) hrun
  have hall : ∀ a, s.resets a ≤ s.sets a ∧
    s.kdbg.mem a = if s.sets a = s.resets a then orig a else breakOpc := by
    intro a
    rw [hinv.count a, hinv.mem a]
    by_cases ha : s.kdbg.Has a
    · rw [if_pos ha, if_pos ha, if_neg (by omega)]
      exact ⟨by omega, rfl⟩
    · rw [if_neg ha, if_neg ha, if_pos (by omega)]
      exact ⟨by omega, rfl⟩
  refine ⟨hall, fun heq => funext fun a => ?_⟩
  rw [(hall a).2, if_pos (heq a)]

end

/-! ### A breakpoint that is set twice -/

/-- A program of `nop`s, all of it mapped. -/
def nops : Session := Session.start (fun _ => 0x90) (fun _ => true) 1

/-- The session after a call. -/
def Session.after (s : Session) (op : Op) : Session :=
  match op.exec s.kdbg with
  | .ok r k => s.note op r k
  | .halt _ _ => s

theorem Session.Step.after {P : Kdbg → Op → Prop} {s : Session} {op : Op} (hp : P s.kdbg op)
    (h : (op.exec s.kdbg).returned = true) : Session.Step P s (s.after op) := by
  unfold Session.after
  cases hx : op.exec s.kdbg with
  | ok r k => exact ⟨op, r, k, hp, hx, rfl⟩
  | halt e k =>
    rw [hx] at h
    cases h

/-- A breakpoint is set and reset. -/
theorem breakpoints_reversible_once :
    ((nops.after (.set 0x1000)).after (.reset 0x1000)).kdbg.mem 0x1000 = 0x90 ∧
      (nops.after (.set 0x1000)).kdbg.mem 0x1000 = breakOpc := by
  have h1 : Session.Step Op.Careful nops (nops.after (.set 0x1000)) :=
    .after (by decide +kernel) rfl
  have h2 : Session.Step Op.Careful (nops.after (.set 0x1000))
    ((nops.after (.set 0x1000)).after (.reset 0x1000)) :=
    .after (by decide +kernel) rfl
  have hend := (breakpoints_reversible _ _ (.tail (.single h1) h2)).1 0x1000
  have hmid := (breakpoints_reversible _ _ (.single h1)).1 0x1000
  exact ⟨hend.2.trans (if_pos (by decide +kernel)), hmid.2.trans (if_neg (by decide +kernel))⟩

/-- A breakpoint is set twice and reset twice. -/
def twice : Session :=
  [Op.set 0x1000, .set 0x1000, .reset 0x1000, .reset 0x1000].foldl Session.after nops

/-- **The byte of the program is lost** when a breakpoint is set twice and reset twice. -/
theorem breakpoint_kept : Reach (Session.Step fun _ _ => True) nops twice ∧
    (∀ a, twice.sets a = twice.resets a) ∧ nops.kdbg.mem 0x1000 = 0x90 ∧
      twice.kdbg.mem 0x1000 = 0xCC := by
  have hstep : ∀ (s : Session) (op : Op), (op.exec s.kdbg).returned = true →
      Session.Step (fun _ _ => True) s (s.after op) := fun s op h => .after trivial h
  refine ⟨.tail (.tail (.tail (.single (hstep nops (.set 0x1000) rfl)) (hstep _ (.set 0x1000) rfl))
    (hstep _ (.reset 0x1000) rfl)) (hstep _ (.reset 0x1000) rfl), fun a =>
      ?_, by decide +kernel, by decide +kernel⟩
  have hsets : twice.sets = update (update (fun _ => 0) 0x1000 1) 0x1000 2 := rfl
  have hresets : twice.resets = update (update (fun _ => 0) 0x1000 1) 0x1000 2 := rfl
  rw [hsets, hresets]

end Cosiris.Debug
