import Mathlib.Data.List.Basic
import Mathlib.Data.List.Nodup

/-!
# Lists that are linked both ways

Nodes are linked by `prev` and `next`. Read the other way, with the two exchanged, they are linked
too, so that what is said of one direction holds of the other.
-/

namespace Cosiris

variable {α : Type*} {prev next prev' next' : α → α} {p p' n n' v v' w w' a null : α}
  {l l₁ l₂ : List α}

/-- Each node of a list has the one before it as `prev`, the one behind it as `next`; `p` is before
the list and `n` behind it. -/
def Linked (prev next : α → α) : α → List α → α → Prop
  | _, [], _ => True
  | p, a :: l, n => prev a = p ∧ next a = l.headD n ∧ Linked prev next a l n

/-- A list is linked if its parts are, to each other. -/
theorem linked_append : Linked prev next p (l₁ ++ l₂) n ↔
    Linked prev next p l₁ (l₂.headD n) ∧ Linked prev next (l₁.getLastD p) l₂ n := by
  induction l₁ generalizing p with
  | nil => simp [Linked]
  | cons a l ih =>
    have hhead : (l ++ l₂).headD n = l.headD (l₂.headD n) := by cases l <;> rfl
    have hlast : (a :: l).getLastD p = l.getLastD a := List.getLastD_cons ..
    rw [List.cons_append, Linked, Linked, ih, hhead, hlast, and_assoc, and_assoc]

theorem headD_reverse (l : List α) (n : α) : l.reverse.headD n = l.getLastD n := by
  rw [List.headD_eq_head?_getD, List.head?_reverse, List.getLastD_eq_getLast?]

theorem getLastD_reverse (l : List α) (n : α) : l.reverse.getLastD n = l.headD n := by
  rw [← headD_reverse, List.reverse_reverse]

theorem headD_eq_null (hnull : null ∉ l) : l.headD null = null ↔ l = [] := by
  cases l with
  | nil => simp
  | cons a l =>
    rw [List.mem_cons, not_or] at hnull
    simpa using Ne.symm hnull.1

theorem getLastD_eq_null (hnull : null ∉ l) : l.getLastD null = null ↔ l = [] := by
  rw [← headD_reverse, headD_eq_null (by rwa [List.mem_reverse]), List.reverse_eq_nil_iff]

/-- The other direction. -/
theorem Linked.reverse (h : Linked prev next p l n) : Linked next prev n l.reverse p := by
  induction l generalizing p with
  | nil => trivial
  | cons a l ih =>
    obtain ⟨hprev, hnext, hl⟩ := h
    rw [List.reverse_cons, linked_append]
    refine ⟨ih hl, ?_, hprev, trivial⟩
    rw [getLastD_reverse]
    exact hnext

/-- A list may be linked to other nodes. -/
theorem Linked.move (h : Linked prev next p l n) (hprev : ∀ a ∈ l.tail, prev' a = prev a)
    (hhead : ∀ a ∈ l.head?, prev' a = p') (hnext : ∀ a ∈ l.dropLast, next' a = next a)
    (hlast : ∀ a ∈ l.getLast?, next' a = n') : Linked prev' next' p' l n' := by
  induction l generalizing p p' with
  | nil => trivial
  | cons a l ih =>
    obtain ⟨hprev_a, hnext_a, hl⟩ := h
    cases l with
    | nil => exact ⟨hhead a rfl, hlast a rfl, trivial⟩
    | cons b l =>
      refine ⟨hhead a rfl, (hnext a List.mem_cons_self).trans hnext_a, ?_⟩
      refine ih hl (fun c hc => hprev c (List.mem_cons_of_mem _ hc)) ?_
        (fun c hc => hnext c (List.mem_cons_of_mem _ hc)) hlast
      rintro c ⟨⟩
      exact (hprev b List.mem_cons_self).trans hl.1

theorem Linked.prev_head (h : Linked prev next p l n) : ∀ a ∈ l.head?, prev a = p := by
  cases l with
  | nil => simp
  | cons a l =>
    rintro _ ⟨⟩
    exact h.1

theorem Linked.next_last (h : Linked prev next p l n) : ∀ a ∈ l.getLast?, next a = n := by
  rw [← List.head?_reverse]
  exact h.reverse.prev_head

/-- Only the links of the nodes count. -/
theorem Linked.congr (h : Linked prev next p l n) (hprev : ∀ a ∈ l, prev' a = prev a)
    (hnext : ∀ a ∈ l, next' a = next a) : Linked prev' next' p l n := by
  apply h.move
  · exact fun a ha => hprev a (List.mem_of_mem_tail ha)
  · exact fun a ha => (hprev a (List.mem_of_mem_head? ha)).trans (h.prev_head a ha)
  · exact fun a ha => hnext a (List.dropLast_subset _ ha)
  · exact fun a ha => (hnext a (List.mem_of_mem_getLast? ha)).trans (h.next_last a ha)

/-- The links at a node within a list. -/
theorem Linked.at (h : Linked prev next p (l₁ ++ a :: l₂) n) :
    prev a = l₁.getLastD p ∧ next a = l₂.headD n := by
  obtain ⟨-, hprev, hnext, -⟩ := linked_append.mp h
  exact ⟨hprev, hnext⟩

theorem getLast?_ne_of_mem_dropLast (hl : l.Nodup) (ha : a ∈ l.dropLast) : l.getLast? ≠ some a := by
  intro hlast
  obtain ⟨l, rfl⟩ := List.getLast?_eq_some_iff.mp hlast
  rw [List.dropLast_concat] at ha
  exact (List.nodup_append.mp hl).2.2 a ha a List.mem_cons_self rfl

theorem head?_ne_of_mem_tail (hl : l.Nodup) (ha : a ∈ l.tail) : l.head? ≠ some a := by
  intro hhead
  obtain ⟨l, rfl⟩ := List.head?_eq_some_iff.mp hhead
  exact (List.nodup_cons.mp hl).1 ha

variable [DecidableEq α]

/-- Two parts are linked to other nodes where they meet. -/
theorem Linked.relink (h₁ : Linked prev next p l₁ v') (h₂ : Linked prev next w' l₂ n)
    (hl : (l₁ ++ l₂).Nodup)
    (hprev : ∀ x ∈ l₁ ++ l₂, prev' x = if l₂.head? = some x then w else prev x)
    (hnext : ∀ x ∈ l₁ ++ l₂, next' x = if l₁.getLast? = some x then v else next x) :
    Linked prev' next' p l₁ v ∧ Linked prev' next' w l₂ n := by
  obtain ⟨hl₁, hl₂, hdisj⟩ := List.nodup_append.mp hl
  have hprev₁ (x) (hx : x ∈ l₁) : prev' x = prev x := by
    rw [hprev x (List.mem_append_left _ hx)]
    exact if_neg fun hx' => hdisj x hx x (List.mem_of_mem_head? hx') rfl
  have hnext₂ (x) (hx : x ∈ l₂) : next' x = next x := by
    rw [hnext x (List.mem_append_right _ hx)]
    exact if_neg fun hx' => hdisj x (List.mem_of_mem_getLast? hx') x hx rfl
  constructor
  · apply h₁.move
    · intro x hx
      exact hprev₁ x (List.mem_of_mem_tail hx)
    · intro x hx
      exact (hprev₁ x (List.mem_of_mem_head? hx)).trans (h₁.prev_head x hx)
    · intro x hx
      rw [hnext x (List.mem_append_left _ (List.dropLast_subset _ hx))]
      exact if_neg (getLast?_ne_of_mem_dropLast hl₁ hx)
    · intro x hx
      rw [hnext x (List.mem_append_left _ (List.mem_of_mem_getLast? hx))]
      exact if_pos hx
  · apply h₂.move
    · intro x hx
      rw [hprev x (List.mem_append_right _ (List.mem_of_mem_tail hx))]
      exact if_neg (head?_ne_of_mem_tail hl₂ hx)
    · intro x hx
      rw [hprev x (List.mem_append_right _ (List.mem_of_mem_head? hx))]
      exact if_pos hx
    · intro x hx
      exact hnext₂ x (List.dropLast_subset _ hx)
    · intro x hx
      exact (hnext₂ x (List.mem_of_mem_getLast? hx)).trans (h₂.next_last x hx)

/-- A node between two parts of a list: four links change, or fewer at an end. -/
theorem Linked.insert (h : Linked prev next p (l₁ ++ l₂) n) (hl : (l₁ ++ l₂).Nodup)
    (ha : a ∉ l₁ ++ l₂) :
    Linked
      (Function.update (fun x => if l₂.head? = some x then a else prev x) a (l₁.getLastD p))
      (Function.update (fun x => if l₁.getLast? = some x then a else next x) a (l₂.headD n))
      p (l₁ ++ a :: l₂) n := by
  obtain ⟨h₁, h₂⟩ := linked_append.mp h
  have hne {x} (hx : x ∈ l₁ ++ l₂) : x ≠ a := fun hxa => ha (hxa ▸ hx)
  refine linked_append.mpr ((h₁.relink h₂ hl ?_ ?_).imp_right fun h₂' =>
    ⟨Function.update_self .., Function.update_self .., h₂'⟩)
  · exact fun x hx => Function.update_of_ne (hne hx) ..
  · exact fun x hx => Function.update_of_ne (hne hx) ..

/-- Without a node, the parts before and behind it are linked to each other. -/
theorem Linked.remove (h : Linked prev next p (l₁ ++ a :: l₂) n) (hl : (l₁ ++ a :: l₂).Nodup) :
    Linked (fun x => if l₂.head? = some x then l₁.getLastD p else prev x)
      (fun x => if l₁.getLast? = some x then l₂.headD n else next x) p (l₁ ++ l₂) n := by
  obtain ⟨h₁, -, -, h₂⟩ := linked_append.mp h
  exact linked_append.mpr <|
    h₁.relink h₂ (List.nodup_middle.mp hl).of_cons (fun _ _ => rfl) fun _ _ => rfl

/-- The nodes from one on, along the links, up to `null`, for a number of rounds. -/
def follow (null : α) (link : α → α) : ℕ → α → Option (List α)
  | fuel, a =>
    if a = null then some []
    else match fuel with
      | 0 => none
      | fuel + 1 => (follow null link fuel (link a)).map (a :: ·)

/-- The links lead through the list. -/
theorem Linked.follow (h : Linked prev next p l null) (hnull : null ∉ l) {fuel : ℕ}
    (hfuel : l.length ≤ fuel) : follow null next fuel (l.headD null) = some l := by
  induction l generalizing p fuel with
  | nil =>
    unfold Cosiris.follow
    exact if_pos rfl
  | cons a l ih =>
    obtain ⟨fuel, rfl⟩ := Nat.exists_eq_add_one_of_ne_zero (Nat.ne_zero_of_lt hfuel)
    rw [List.mem_cons, not_or] at hnull
    obtain ⟨-, hnext, hl⟩ := h
    unfold Cosiris.follow
    rw [List.headD_cons, if_neg (Ne.symm hnull.1)]
    dsimp only
    rw [hnext, ih hl hnull.2 (Nat.le_of_succ_le_succ hfuel)]
    rfl

/-- And, the other way, back. -/
theorem Linked.follow_back (h : Linked prev next null l n) (hnull : null ∉ l) {fuel : ℕ}
    (hfuel : l.length ≤ fuel) :
    Cosiris.follow null prev fuel (l.getLastD null) = some l.reverse := by
  rw [← headD_reverse]
  exact h.reverse.follow (by simpa using hnull) (by simpa using hfuel)

end Cosiris
