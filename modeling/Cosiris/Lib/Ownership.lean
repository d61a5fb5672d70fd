import Mathlib.Algebra.Notation.Defs
import Mathlib.Logic.Function.Basic

/-!
# Blocks and their owners

A store of blocks, some of them fixed and some allotted to owners. `R o` is the
block of owner `o`, with `0` for none, and `used` is what the allocator believes.
The two agree when every owned block has one owner and is not fixed, and the used
blocks are the fixed and the owned ones. Taking a block for an owner that has none
and releasing the block of an owner keep them in agreement.
-/

namespace Cosiris

open Function

variable {ι β : Type*} [Zero β]

/-- The allocator's view of the blocks agrees with their owners. -/
structure Allotted (R : ι → β) (fixed used : β → Prop) : Prop where
  inj : ∀ {o o' : ι}, R o ≠ 0 → R o = R o' → o = o'
  apart : ∀ {o : ι}, R o ≠ 0 → ¬ fixed (R o)
  used_iff : ∀ b, used b ↔ fixed b ∨ (b ≠ 0 ∧ ∃ o, R o = b)

namespace Allotted

variable {R : ι → β} {fixed used used' : β → Prop}

theorem used_of_owned (h : Allotted R fixed used) {o : ι} (ho : R o ≠ 0) : used (R o) :=
  (h.used_iff _).mpr (.inr ⟨ho, o, rfl⟩)

theorem used_of_fixed (h : Allotted R fixed used) {b : β} (hb : fixed b) : used b :=
    (h.used_iff b).mpr (.inl hb)

theorem ne_of_not_used (h : Allotted R fixed used) {b : β} (hb : ¬ used b) (hb0 : b ≠ 0) (o : ι) :
    R o ≠ b := by
  intro e
  exact hb ((h.used_iff b).mpr (.inr ⟨hb0, o, e⟩))

/-- An owner that has no block takes a free one. -/
theorem take [DecidableEq ι] (h : Allotted R fixed used) {o : ι} {b : β}
    (ho : R o = 0) (hb0 : b ≠ 0) (hb : ¬ used b)
    (hused : ∀ c, used' c ↔ used c ∨ c = b) : Allotted (update R o b) fixed used' where
  inj := by
    intro p q hp hpq
    by_cases hpo : p = o <;> by_cases hqo : q = o
    · rw [hpo, hqo]
    · rw [hpo, update_self, update_of_ne hqo] at hpq
      exact absurd hpq.symm (h.ne_of_not_used hb hb0 q)
    · rw [hqo, update_self, update_of_ne hpo] at hpq
      exact absurd hpq (h.ne_of_not_used hb hb0 p)
    · rw [update_of_ne hpo] at hp
      rw [update_of_ne hpo, update_of_ne hqo] at hpq
      exact h.inj hp hpq
  apart := by
    intro p hp hf
    by_cases hpo : p = o
    · rw [hpo, update_self] at hf
      exact hb (h.used_of_fixed hf)
    · rw [update_of_ne hpo] at hp hf
      exact h.apart hp hf
  used_iff := by
    intro c
    rw [hused, h.used_iff]
    constructor
    · rintro ((hf | ⟨hc, p, hp⟩) | rfl)
      · exact .inl hf
      · have hpo : p ≠ o := by
          rintro rfl
          exact hc (by rw [← hp, ho])
        exact .inr ⟨hc, p, by rw [update_of_ne hpo, hp]⟩
      · exact .inr ⟨hb0, o, by rw [update_self]⟩
    · rintro (hf | ⟨hc, p, hp⟩)
      · exact .inl (.inl hf)
      · by_cases hpo : p = o
        · rw [hpo, update_self] at hp
          exact .inr hp.symm
        · rw [update_of_ne hpo] at hp
          exact .inl (.inr ⟨hc, p, hp⟩)

/-- An owner gives its block back. -/
theorem release [DecidableEq ι] (h : Allotted R fixed used) {o : ι} (ho : R o ≠ 0)
    (hused : ∀ c, used' c ↔ used c ∧ c ≠ R o) : Allotted (update R o 0) fixed used' where
  inj := by
    intro p q hp hpq
    have hpo : p ≠ o := by
      rintro rfl
      exact hp (update_self _ _ _)
    rw [update_of_ne hpo] at hp hpq
    by_cases hqo : q = o
    · rw [hqo, update_self] at hpq
      exact absurd hpq hp
    · rw [update_of_ne hqo] at hpq
      exact h.inj hp hpq
  apart := by
    intro p hp
    have hpo : p ≠ o := by
      rintro rfl
      exact hp (update_self _ _ _)
    rw [update_of_ne hpo] at hp ⊢
    exact h.apart hp
  used_iff := by
    intro c
    rw [hused, h.used_iff]
    constructor
    · rintro ⟨hf | ⟨hc, p, hp⟩, hne⟩
      · exact .inl hf
      · have hpo : p ≠ o := by
          rintro rfl
          exact hne hp.symm
        exact .inr ⟨hc, p, by rw [update_of_ne hpo, hp]⟩
    · rintro (hf | ⟨hc, p, hp⟩)
      · exact ⟨.inl hf, fun e => h.apart ho (e ▸ hf)⟩
      · have hpo : p ≠ o := by
          rintro rfl
          exact hc (by rw [← hp, update_self])
        rw [update_of_ne hpo] at hp
        refine ⟨.inr ⟨hc, p, hp⟩, fun e => hpo ?_⟩
        exact h.inj (by rw [hp]; exact hc) (hp.trans e)

end Allotted

end Cosiris
