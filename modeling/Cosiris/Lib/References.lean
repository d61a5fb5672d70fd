import Mathlib.Algebra.Order.Group.Nat
import Mathlib.Data.Int.Notation
import Mathlib.Logic.Function.Basic

/-!
# Counted references

Objects that are made one after the other, with numbers from `0` on, and held by holders, each of
whom may hold several references to an object. With an object the number of its references beyond
the first is stored, and it is freed with the last one. The books are right when no object has two
holders, the stored numbers are those of the references, and an object has been freed, once,
exactly when nobody holds it. -/

namespace Cosiris

/-- Holder `k` has `held k f` references to object `f`, with which `extra f` is stored, and which
was freed `frees f` times; the next object is `next`. -/
structure Ledger {κ : Type*} (held : κ → ℕ → ℕ) (extra : ℕ → ℤ) (frees : ℕ → ℕ)
    (next : ℕ) : Prop where
  count : ∀ k f, held k f ≠ 0 → extra f + 1 = held k f
  apart : ∀ k k' f, held k f ≠ 0 → held k' f ≠ 0 → k = k'
  live : ∀ k f, held k f ≠ 0 → frees f = 0
  freed : ∀ f, f < next → (∀ k, held k f = 0) → frees f = 1
  bound : ∀ k f, held k f ≠ 0 → f < next
  beyond : ∀ f, next ≤ f → frees f = 0

namespace Ledger

open Function

variable {κ : Type*} {held : κ → ℕ → ℕ} {extra : ℕ → ℤ} {frees : ℕ → ℕ} {next f : ℕ} {k : κ}

/-- An object is made and freed. -/
theorem waste (h : Ledger held extra frees next) {e : ℤ} :
    Ledger held (update extra next e) (update frees next (frees next + 1)) (next + 1) := by
  have hne : ∀ k f, held k f ≠ 0 → f ≠ next := fun k f hf => (h.bound k f hf).ne
  refine ⟨fun k f hf => ?_, h.apart, fun k f hf => ?_, fun f hf h0 => ?_, fun k f hf =>
    (h.bound k f hf).trans (Nat.lt_succ_self _), fun f hf => ?_⟩
  · rw [update_of_ne (hne k f hf)]
    exact h.count k f hf
  · rw [update_of_ne (hne k f hf)]
    exact h.live k f hf
  · by_cases hfn : f = next
    · subst hfn
      rw [update_self, h.beyond f le_rfl]
    · rw [update_of_ne hfn]
      exact h.freed f (by omega) h0
  · rw [update_of_ne (by omega)]
    exact h.beyond f (by omega)

variable [DecidableEq κ]

/-- The references with `n` of `k` to `f`. -/
def put (held : κ → ℕ → ℕ) (k : κ) (f n : ℕ) : κ → ℕ → ℕ := update held k (update (held k) f n)

theorem put_self {n : ℕ} : put held k f n k f = n := by simp [put]

theorem put_ne {n f' : ℕ} {k' : κ} (h : k' ≠ k ∨ f' ≠ f) : put held k f n k' f' = held k' f' := by
  unfold put
  by_cases hk : k' = k
  · subst hk
    rw [update_self, update_of_ne (h.resolve_left fun h => h rfl)]
  · rw [update_of_ne hk]

/-- References are others, or those that were put. -/
theorem put_cases (held : κ → ℕ → ℕ) (k k' : κ) (f f' n : ℕ) :
    k' = k ∧ f' = f ∧ put held k f n k' f' = n ∨
      (k' ≠ k ∨ f' ≠ f) ∧ put held k f n k' f' = held k' f' := by
  by_cases hk : k' = k
  · by_cases hf : f' = f
    · subst hk
      subst hf
      exact .inl ⟨rfl, rfl, put_self⟩
    · exact .inr ⟨.inr hf, put_ne (.inr hf)⟩
  · exact .inr ⟨.inl hk, put_ne (.inl hk)⟩

/-- An object is made and held. -/
theorem make (h : Ledger held extra frees next) :
    Ledger (put held k next 1) (update extra next 0) frees (next + 1) := by
  have hne : ∀ k' f', put held k next 1 k' f' ≠ 0 → k' = k ∧ f' = next ∨ f' ≠ next ∧
    held k' f' ≠ 0 := fun k' f' hf => by
    rcases put_cases held k k' next f' 1 with ⟨hk, hf', -⟩ | ⟨-, he⟩
    · exact .inl ⟨hk, hf'⟩
    · rw [he] at hf
      exact .inr ⟨(h.bound k' f' hf).ne, hf⟩
  refine ⟨fun k' f' hf => ?_, fun k₁ k₂ f' h₁ h₂ => ?_, fun k' f' hf => ?_, fun f' hf' h0 =>
    ?_, fun k' f' hf => ?_, fun f' hf' => h.beyond f' (by omega)⟩
  · rcases hne k' f' hf with ⟨rfl, rfl⟩ | ⟨hf', hheld⟩
    · rw [put_self, update_self]
      rfl
    · rw [put_ne (.inr hf'), update_of_ne hf']
      exact h.count k' f' hheld
  · rcases hne k₁ f' h₁ with ⟨rfl, rfl⟩ | ⟨hf₁, hheld₁⟩
    · rcases hne k₂ _ h₂ with ⟨rfl, -⟩ | ⟨hf₂, -⟩
      · rfl
      · exact absurd rfl hf₂
    · rcases hne k₂ f' h₂ with ⟨-, rfl⟩ | ⟨-, hheld₂⟩
      · exact absurd rfl hf₁
      · exact h.apart k₁ k₂ f' hheld₁ hheld₂
  · rcases hne k' f' hf with ⟨-, rfl⟩ | ⟨-, hheld⟩
    · exact h.beyond _ le_rfl
    · exact h.live k' f' hheld
  · have hfn : f' ≠ next := by
      rintro rfl
      have := h0 k
      rw [put_self] at this
      cases this
    refine h.freed f' (by omega) fun k' => ?_
    have := h0 k'
    rwa [put_ne (.inr hfn)] at this
  · rcases hne k' f' hf with ⟨-, rfl⟩ | ⟨-, hheld⟩
    · exact Nat.lt_succ_self _
    · exact (h.bound k' f' hheld).trans (Nat.lt_succ_self _)

/-- The number of references of a holder changes, and stays above zero. -/
theorem change (h : Ledger held extra frees next) {n : ℕ} {e : ℤ}
    (hheld : held k f ≠ 0) (hn : n ≠ 0) (he : e + 1 = n) :
    Ledger (put held k f n) (update extra f e) frees next := by
  have hother : ∀ k', k' ≠ k → held k' f = 0 := fun k' hk => by
    by_contra hne
    exact hk (h.apart k' k f hne hheld)
  have hne : ∀ k' f', put held k f n k' f' ≠ 0 → held k' f' ≠ 0 := fun k' f' hf => by
    rcases put_cases held k k' f f' n with ⟨rfl, rfl, -⟩ | ⟨-, hp⟩
    · exact hheld
    · rwa [hp] at hf
  refine ⟨fun k' f' hf => ?_, fun k₁ k₂ f' h₁ h₂ =>
    h.apart k₁ k₂ f' (hne _ _ h₁) (hne _ _ h₂), fun k' f' hf =>
      h.live k' f' (hne _ _ hf), fun f' hf' h0 => h.freed f' hf' fun k' => ?_, fun k' f' hf =>
        h.bound k' f' (hne _ _ hf), h.beyond⟩
  · rcases put_cases held k k' f f' n with ⟨rfl, rfl, hp⟩ | ⟨hor, hp⟩
    · rw [hp, update_self, he]
    · have hheld' := hne k' f' hf
      have hff : f' ≠ f := by
        rintro rfl
        rcases hor with hk | hf'
        · exact hheld' (hother k' hk)
        · exact hf' rfl
      rw [hp, update_of_ne hff]
      exact h.count k' f' hheld'
  · have := h0 k'
    rcases put_cases held k k' f f' n with ⟨rfl, rfl, hp⟩ | ⟨-, hp⟩
    · rw [hp] at this
      exact absurd this hn
    · rwa [hp] at this

/-- The last reference to an object is given up, and the object is freed. -/
theorem drop (h : Ledger held extra frees next) (hheld : held k f ≠ 0) :
    Ledger (put held k f 0) extra (update frees f (frees f + 1)) next := by
  have hother : ∀ k', k' ≠ k → held k' f = 0 := fun k' hk => by
    by_contra hne
    exact hk (h.apart k' k f hne hheld)
  have hne : ∀ k' f', put held k f 0 k' f' ≠ 0 →
    f' ≠ f ∧ held k' f' ≠ 0 ∧ put held k f 0 k' f' = held k' f' := fun k' f' hf => by
    rcases put_cases held k k' f f' 0 with ⟨rfl, rfl, hp⟩ | ⟨hor, hp⟩
    · exact absurd hp hf
    · rw [hp] at hf
      refine ⟨?_, hf, hp⟩
      rintro rfl
      rcases hor with hk | hf'
      · exact hf (hother k' hk)
      · exact hf' rfl
  refine ⟨fun k' f' hf => ?_, fun k₁ k₂ f' h₁ h₂ =>
    h.apart k₁ k₂ f' (hne _ _ h₁).2.1 (hne _ _ h₂).2.1, fun k' f' hf => ?_, fun f' hf' h0 =>
      ?_, fun k' f' hf => h.bound k' f' (hne _ _ hf).2.1, fun f' hf' => ?_⟩
  · obtain ⟨-, hheld', hp⟩ := hne k' f' hf
    rw [hp]
    exact h.count k' f' hheld'
  · obtain ⟨hff, hheld', -⟩ := hne k' f' hf
    rw [update_of_ne hff]
    exact h.live k' f' hheld'
  · by_cases hff : f' = f
    · subst hff
      rw [update_self, h.live k f' hheld]
    · rw [update_of_ne hff]
      refine h.freed f' hf' fun k' => ?_
      have := h0 k'
      rwa [put_ne (.inr hff)] at this
  · rw [update_of_ne fun e => by have := h.bound k f hheld; omega]
    exact h.beyond f' hf'

/-- A new holder makes objects for itself, one reference to each. -/
theorem join (h : Ledger held extra frees next) {held' : κ → ℕ → ℕ} {extra' : ℕ → ℤ} {next' : ℕ}
    (hnext : next ≤ next')
    (hk : ∀ f, held k f = 0) (hother : ∀ k', k' ≠ k → held' k' = held k')
    (hold : ∀ f, f < next → extra' f = extra f)
    (hnew : ∀ f, held' k f = if next ≤ f ∧ f < next' then 1 else 0)
    (hextra : ∀ f, next ≤ f → f < next' → extra' f = 0) :
    Ledger held' extra' frees next' := by
  have hne : ∀ k' f', held' k' f' ≠ 0 → k' = k ∧ (next ≤ f' ∧ f' < next') ∨ k' ≠ k ∧
    held k' f' ≠ 0 := fun k' f' hf => by
    by_cases hkk : k' = k
    · subst hkk
      rw [hnew] at hf
      exact .inl ⟨rfl, by_contra fun hn => hf (if_neg hn)⟩
    · rw [hother k' hkk] at hf
      exact .inr ⟨hkk, hf⟩
  refine ⟨fun k' f' hf => ?_, fun k₁ k₂ f' h₁ h₂ => ?_, fun k' f' hf => ?_, fun f' hf' h0 =>
    ?_, fun k' f' hf => ?_, fun f' hf' => h.beyond f' (hnext.trans hf')⟩
  · rcases hne k' f' hf with ⟨rfl, hb⟩ | ⟨hkk, hheld⟩
    · rw [hnew, if_pos hb, hextra f' hb.1 hb.2]
      rfl
    · rw [hother k' hkk, hold f' (h.bound k' f' hheld)]
      exact h.count k' f' hheld
  · rcases hne k₁ f' h₁ with ⟨rfl, hb⟩ | ⟨-, hheld₁⟩
    · rcases hne k₂ f' h₂ with ⟨rfl, -⟩ | ⟨-, hheld₂⟩
      · rfl
      · have := h.bound k₂ f' hheld₂
        omega
    · rcases hne k₂ f' h₂ with ⟨rfl, hb⟩ | ⟨-, hheld₂⟩
      · have := h.bound k₁ f' hheld₁
        omega
      · exact h.apart k₁ k₂ f' hheld₁ hheld₂
  · rcases hne k' f' hf with ⟨-, hb⟩ | ⟨-, hheld⟩
    · exact h.beyond f' hb.1
    · exact h.live k' f' hheld
  · have hlt : f' < next := by
      by_contra hge
      have := h0 k
      rw [hnew, if_pos ⟨by omega, hf'⟩] at this
      cases this
    refine h.freed f' hlt fun k' => ?_
    by_cases hkk : k' = k
    · exact hkk ▸ hk f'
    · rw [← hother k' hkk]
      exact h0 k'
  · rcases hne k' f' hf with ⟨-, hb⟩ | ⟨-, hheld⟩
    · exact hb.2
    · exact (h.bound k' f' hheld).trans_le hnext

end Ledger

end Cosiris
