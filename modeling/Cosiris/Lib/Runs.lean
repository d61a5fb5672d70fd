import Mathlib.Logic.Relation

/-!
# Runs of a step relation

A run is a finite sequence of steps. What holds at the start and is kept by
every step holds in every state a run reaches; what a step keeps may be shown
under an invariant that is already known.
-/

namespace Cosiris

open Relation

variable {σ : Type*} {step : σ → σ → Prop}

/-- The states reached from `s` by finitely many steps. -/
abbrev Reach (step : σ → σ → Prop) (s t : σ) : Prop := ReflTransGen step s t

/-- **The invariant rule**: a property of the start that every step keeps holds in
every state reached. -/
theorem Reach.invariant {I : σ → Prop} (hstep : ∀ s t, I s → step s t → I t) {s t : σ} (hs : I s)
    (h : Reach step s t) : I t := by
  induction h with
  | refl => exact hs
  | tail _ hst ih => exact hstep _ _ ih hst

end Cosiris
