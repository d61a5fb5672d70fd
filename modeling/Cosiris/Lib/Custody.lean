import Mathlib.Data.List.Nodup
import Mathlib.Data.Nat.Notation

/-!
# Objects in places

Objects that are made one after the other, with numbers from `0` on, and lie in places: each in
one of them, and there once. A new object is put in some place, and objects go from the front of
one place to the end of another. What is no longer used lies in a place of its own. -/

namespace Cosiris

/-- The places `c` hold each of the objects below `next` once, and no other. -/
structure Custody {π : Type*} (c : π → List ℕ) (next : ℕ) : Prop where
  nodup : ∀ p, (c p).Nodup
  apart : ∀ p q b, b ∈ c p → b ∈ c q → p = q
  bound : ∀ p b, b ∈ c p → b < next
  held : ∀ b, b < next → ∃ p, b ∈ c p

namespace Custody

variable {π : Type*} {c c' : π → List ℕ} {next : ℕ} {p q : π}

/-- There is nothing yet. -/
theorem empty (h : ∀ p, c p = []) : Custody c 0 where
  nodup p := by simp [h p]
  apart p q b hp := by simp [h p] at hp
  bound p b hp := by simp [h p] at hp
  held b hb := absurd hb (Nat.not_lt_zero b)

/-- A new object is put in a place. -/
theorem make (h : Custody c next) (hp : c' p = c p ++ [next]) (hother : ∀ r, r ≠ p → c' r = c r) :
    Custody c' (next + 1) := by
  have hmem : ∀ {r : π} {b : ℕ}, b ∈ c' r → b ∈ c r ∨ r = p ∧ b = next := by
    intro r b hb
    by_cases hr : r = p
    · subst hr
      rw [hp, List.mem_append, List.mem_singleton] at hb
      exact hb.imp_right fun hb => ⟨rfl, hb⟩
    · rw [hother r hr] at hb
      exact Or.inl hb
  have hnew : ∀ r, next ∉ c r := fun r hr => Nat.lt_irrefl _ (h.bound r next hr)
  constructor
  · intro r
    by_cases hr : r = p
    · subst hr
      rw [hp]
      exact List.nodup_append.mpr ⟨h.nodup r, List.nodup_singleton _,
        fun a ha b hb hab => hnew r (by
        rw [List.mem_singleton] at hb
        rw [← hb, ← hab]
        exact ha)⟩
    · rw [hother r hr]
      exact h.nodup r
  · intro r r' b hb hb'
    rcases hmem hb with hb | ⟨rfl, rfl⟩ <;> rcases hmem hb' with hb' | ⟨rfl, hn⟩
    · exact h.apart r r' b hb hb'
    · subst hn
      exact absurd hb (hnew r)
    · exact absurd hb' (hnew r')
    · rfl
  · intro r b hb
    rcases hmem hb with hb | ⟨-, rfl⟩
    · exact Nat.lt_succ_of_lt (h.bound r b hb)
    · exact Nat.lt_succ_self _
  · intro b hb
    rcases Nat.lt_succ_iff_lt_or_eq.mp hb with hb | rfl
    · obtain ⟨r, hr⟩ := h.held b hb
      by_cases hrp : r = p
      · subst hrp
        exact ⟨r, by rw [hp]; exact List.mem_append_left _ hr⟩
      · exact ⟨r, by rwa [hother r hrp]⟩
    · exact ⟨p, by rw [hp]; exact List.mem_append_right _ (List.mem_singleton_self _)⟩

/-- Objects go from the front of a place to the end of another. -/
theorem move {l : List ℕ} (h : Custody c next) (hpq : p ≠ q) (hp : c p = l ++ c' p)
    (hq : c' q = c q ++ l)
    (hother : ∀ r, r ≠ p → r ≠ q → c' r = c r) : Custody c' next := by
  have hl : ∀ {b : ℕ}, b ∈ l → b ∈ c p := fun hb => by
    rw [hp]
    exact List.mem_append_left _ hb
  have hrest : ∀ {b : ℕ}, b ∈ c' p → b ∈ c p := fun hb => by
    rw [hp]
    exact List.mem_append_right _ hb
  have hsplit := h.nodup p
  rw [hp, List.nodup_append] at hsplit
  obtain ⟨hnl, hnp, hdisj⟩ := hsplit
  have hmem : ∀ {r : π} {b : ℕ}, b ∈ c' r → (b ∈ c r ∧ (r = p → b ∉ l)) ∨ (r = q ∧ b ∈ l) := by
    intro r b hb
    by_cases hrp : r = p
    · subst hrp
      exact Or.inl ⟨hrest hb, fun _ hbl => hdisj b hbl b hb rfl⟩
    · by_cases hrq : r = q
      · subst hrq
        rw [hq, List.mem_append] at hb
        exact hb.imp (fun hb => ⟨hb, fun he => absurd he hrp⟩) fun hb => ⟨rfl, hb⟩
      · rw [hother r hrp hrq] at hb
        exact Or.inl ⟨hb, fun he => absurd he hrp⟩
  constructor
  · intro r
    by_cases hrp : r = p
    · subst hrp
      exact hnp
    · by_cases hrq : r = q
      · subst hrq
        rw [hq, List.nodup_append]
        refine ⟨h.nodup r, hnl, fun a ha b hb hab => ?_⟩
        subst hab
        exact hpq (h.apart p r a (hl hb) ha)
      · rw [hother r hrp hrq]
        exact h.nodup r
  · intro r r' b hb hb'
    rcases hmem hb with ⟨h1, h2⟩ | ⟨h1, h2⟩ <;> rcases hmem hb' with ⟨h3, h4⟩ | ⟨h3, h4⟩
    · exact h.apart r r' b h1 h3
    · exact absurd h4 (h2 (h.apart r p b h1 (hl h4)))
    · exact absurd h2 (h4 (h.apart r' p b h3 (hl h2)))
    · exact h1.trans h3.symm
  · intro r b hb
    rcases hmem hb with ⟨h1, -⟩ | ⟨-, h2⟩
    · exact h.bound r b h1
    · exact h.bound p b (hl h2)
  · intro b hb
    obtain ⟨r, hr⟩ := h.held b hb
    by_cases hrp : r = p
    · subst hrp
      rw [hp, List.mem_append] at hr
      rcases hr with hr | hr
      · exact ⟨q, by rw [hq]; exact List.mem_append_right _ hr⟩
      · exact ⟨r, hr⟩
    · by_cases hrq : r = q
      · subst hrq
        exact ⟨r, by rw [hq]; exact List.mem_append_left _ hr⟩
      · exact ⟨r, by rwa [hother r hrp hrq]⟩

/-- Nothing moved. -/
theorem congr (h : Custody c next) (hc : ∀ r, c' r = c r) : Custody c' next := by
  have : c' = c := funext hc
  rwa [this]

end Custody

end Cosiris
