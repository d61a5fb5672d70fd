import Mathlib.Data.Nat.Notation
import Mathlib.Logic.Basic

/-!
# Programs with a state that may halt

A program takes a state and either returns a value and a new state, or halts
for a reason, in some state. Halting stands for whatever ends the run of the
system: an assertion that fails, a wait that never ends, an access out of
bounds. A program is specified by what holds when it returns and what holds
when it halts: `wp m Q E s` says that `m`, started in `s`, returns so that `Q`
or halts so that `E`.
-/

namespace Cosiris

/-- How a program ends: it returns a value, or it halts. -/
inductive Outcome (ε σ α : Type) where
  | ok (a : α) (s : σ)
  | halt (e : ε) (s : σ)

namespace Outcome

variable {ε σ α : Type}

/-- The state in which the program has ended. -/
def state : Outcome ε σ α → σ
  | ok _ s | halt _ s => s

/-- The program has returned. -/
def returned : Outcome ε σ α → Bool
  | ok _ _ => true
  | halt _ _ => false

/-- What the program has returned, if it has. -/
def value? : Outcome ε σ α → Option α
  | ok a _ => some a
  | halt _ _ => none

theorem eq_ok_of_value {o : Outcome ε σ α} {a : α} (h : o.value? = some a) : o = .ok a o.state := by
  cases o with
  | ok b s => exact congrArg (Outcome.ok · s) (Option.some.inj h)
  | halt e s => cases h

theorem eq_ok_of_returned {o : Outcome ε σ Unit} (h : o.returned = true) : o = .ok () o.state := by
  cases o with
  | ok a s => rfl
  | halt e s => cases h

end Outcome

/-- A program over states `σ` that returns an `α` or halts for a reason in `ε`. -/
def Prog (ε σ α : Type) := σ → Outcome ε σ α

namespace Prog

variable {ε σ τ α β : Type}

/-- Run `m`, then `f` on what it returns. -/
def bind (m : Prog ε σ α) (f : α → Prog ε σ β) : Prog ε σ β := fun s =>
  match m s with
  | .ok a s' => f a s'
  | .halt e s' => .halt e s'

instance : Monad (Prog ε σ) where
  pure a := fun s => .ok a s
  bind := bind

theorem id_map' (m : Prog ε σ α) : id <$> m = m := by
  funext s
  show Prog.bind m (fun a => pure a) s = m s
  unfold Prog.bind
  cases m s <;> rfl

theorem bind_assoc' {γ : Type} (m : Prog ε σ α) (f : α → Prog ε σ β) (g : β → Prog ε σ γ) :
    m >>= f >>= g = m >>= fun a => f a >>= g := by
  funext s
  show Prog.bind (Prog.bind m f) g s = Prog.bind m (fun a => Prog.bind (f a) g) s
  unfold Prog.bind
  cases m s <;> rfl

instance : LawfulMonad (Prog ε σ) := LawfulMonad.mk' _ id_map' (fun _ _ => rfl) bind_assoc'

/-- The state. -/
def read : Prog ε σ σ := fun s => .ok s s

/-- Change the state. -/
def modify (f : σ → σ) : Prog ε σ Unit := fun s => .ok () (f s)

/-- Stop. -/
def halt (e : ε) : Prog ε σ α := fun s => .halt e s

/-- A program on a part of the state. -/
def zoom (view : σ → τ) (put : τ → σ → σ) (m : Prog ε τ α) : Prog ε σ α := fun s =>
  match m (view s) with
  | .ok a t => .ok a (put t s)
  | .halt e t => .halt e (put t s)

/-- Run `f 0`, `f 1`, up to `f (n - 1)`. -/
def upTo (f : ℕ → Prog ε σ Unit) : ℕ → Prog ε σ Unit
  | 0 => pure ()
  | n + 1 => do
    upTo f n
    f n

/-- `m` started in `s` returns so that `Q`, or halts so that `E`. -/
def wp (m : Prog ε σ α) (Q : α → σ → Prop) (E : ε → σ → Prop) (s : σ) : Prop :=
  match m s with
  | .ok a s' => Q a s'
  | .halt e s' => E e s'

variable {Q Q' : α → σ → Prop} {E E' : ε → σ → Prop} {s : σ}

@[simp] theorem wp_pure (a : α) : wp (pure a : Prog ε σ α) Q E s = Q a s := rfl

@[simp] theorem wp_bind (m : Prog ε σ α) (f : α → Prog ε σ β) (Q : β → σ → Prop) :
    wp (m >>= f) Q E s = wp m (fun a s' => wp (f a) Q E s') E s := by
  show (match Prog.bind m f s with | .ok a s' => Q a s' | .halt e s' => E e s') = _
  unfold Prog.bind wp
  cases m s <;> rfl

@[simp] theorem wp_map (m : Prog ε σ α) (f : α → β) (Q : β → σ → Prop) :
    wp (f <$> m) Q E s = wp m (fun a s' => Q (f a) s') E s := wp_bind m (fun a => pure (f a)) Q

@[simp] theorem wp_read (Q : σ → σ → Prop) : wp (read : Prog ε σ σ) Q E s = Q s s := rfl

@[simp] theorem wp_modify (f : σ → σ) (Q : Unit → σ → Prop) :
    wp (modify f : Prog ε σ Unit) Q E s = Q () (f s) := rfl

@[simp] theorem wp_halt (e : ε) : wp (halt e : Prog ε σ α) Q E s = E e s := rfl

@[simp] theorem wp_ite (c : Prop) [Decidable c] (m n : Prog ε σ α) :
    wp (if c then m else n) Q E s = if c then wp m Q E s else wp n Q E s := by
  split <;> rfl

theorem wp_zoom (view : σ → τ) (put : τ → σ → σ) (m : Prog ε τ α) :
    wp (zoom view put m) Q E s =
      wp m (fun a t => Q a (put t s)) (fun e t => E e (put t s)) (view s) := by
  unfold wp zoom
  cases m (view s) <;> rfl

/-- What a program guarantees may be weakened. -/
theorem wp.mono {m : Prog ε σ α} (h : wp m Q E s) (hQ : ∀ a t, Q a t → Q' a t)
    (hE : ∀ e t, E e t → E' e t) :
    wp m Q' E' s := by
  unfold wp at *
  cases hm : m s with
  | ok a t => rw [hm] at h; exact hQ a t h
  | halt e t => rw [hm] at h; exact hE e t h

/-- A program meets its specification exactly when `C`, if each way in which it can end does. -/
theorem wp_iff {m : Prog ε σ α} {C : Prop}
    (h : wp m (fun a t => Q a t ↔ C) (fun e t => E e t ↔ C) s) :
    wp m Q E s ↔ C := by
  unfold wp at *
  cases hm : m s with
  | ok a t => rw [hm] at h; exact h
  | halt e t => rw [hm] at h; exact h

theorem wp_of_forall {m : Prog ε σ α} (hQ : ∀ a t, Q a t) (hE : ∀ e t, E e t) : wp m Q E s := by
  unfold wp
  cases m s with
  | ok a t => exact hQ a t
  | halt e t => exact hE e t

theorem wp.and {m : Prog ε σ α} (h : wp m Q E s) (h' : wp m Q' E' s) :
    wp m (fun a t => Q a t ∧ Q' a t) (fun e t => E e t ∧ E' e t) s := by
  unfold wp at *
  cases hm : m s with
  | ok a t => rw [hm] at h h'; exact ⟨h, h'⟩
  | halt e t => rw [hm] at h h'; exact ⟨h, h'⟩

/-- **Loops**: what holds before the first round, and after each round if it held before, holds
at the end. -/
theorem wp_upTo {f : ℕ → Prog ε σ Unit} {I : ℕ → σ → Prop} {n : ℕ} (h0 : I 0 s)
    (hstep : ∀ i t, i < n → I i t → wp (f i) (fun _ t' => I (i + 1) t') E t) :
    wp (upTo f n) (fun _ t => I n t) E s := by
  induction n with
  | zero => exact h0
  | succ n ih =>
    rw [upTo, wp_bind]
    refine (ih fun i t hi => hstep i t (by omega)).mono (fun _ t ht => ?_) fun _ _ => id
    exact hstep n t (by omega) ht

-- A loop is reasoned about by its invariant, never by running it.
attribute [irreducible] upTo

theorem read_bind (f : σ → Prog ε σ β) : (read >>= f) s = f s s := rfl

theorem modify_bind (g : σ → σ) (f : Unit → Prog ε σ β) : (modify g >>= f) s = f () (g s) := rfl

/-- A program goes on from where its first part returned. -/
theorem bind_of_ok {m : Prog ε σ α} {f : α → Prog ε σ β} {a : α} {t : σ} (hm : m s = .ok a t) :
    (m >>= f) s = f a t := by
  show Prog.bind m f s = _
  rw [Prog.bind, hm]

/-- A program halts where its first part does. -/
theorem bind_of_halt {m : Prog ε σ α} {f : α → Prog ε σ β} {e : ε} {t : σ} (hm : m s = .halt e t) :
    (m >>= f) s = .halt e t := by
  show Prog.bind m f s = _
  rw [Prog.bind, hm]

/-- A program that returned did so as specified. -/
theorem wp_of_eq {m : Prog ε σ α} {a : α} {t : σ} (hm : m s = .ok a t) : wp m Q E s = Q a t := by
  unfold wp
  rw [hm]

/-- What is specified of the rest of a program is so where its first part returned. -/
theorem wp_bind_of_ok {m : Prog ε σ α} {f : α → Prog ε σ β} {Q : β → σ → Prop} {a : α} {t : σ}
    (hm : m s = .ok a t) (h : wp (f a) Q E t) : wp (m >>= f) Q E s := by
  rw [wp_bind]
  exact (wp_of_eq hm).mpr h

theorem wp.ok {m : Prog ε σ α} (h : wp m Q E s) {a : α} {t : σ} (hm : m s = .ok a t) : Q a t := by
  unfold wp at h
  rwa [hm] at h

/-- A program that halted did so as specified. -/
theorem wp.halted {m : Prog ε σ α} (h : wp m Q E s) {e : ε} {t : σ}
    (hm : m s = .halt e t) : E e t := by
  unfold wp at h
  rwa [hm] at h

/-- A program that is specified never to halt returns. -/
theorem wp.returns {m : Prog ε σ α} (h : wp m Q (fun _ _ => False) s) :
    ∃ a t, m s = .ok a t ∧ Q a t := by
  unfold wp at h
  cases hm : m s with
  | ok a t => rw [hm] at h; exact ⟨a, t, rfl, h⟩
  | halt e t => rw [hm] at h; exact h.elim

end Prog

end Cosiris
