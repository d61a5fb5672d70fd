import Mathlib.Data.List.Basic
import Mathlib.Data.List.Nodup

/-!
# Turns

Behind the one that had the last turn, round the queue, the first that may take a turn takes the
next. Who may take one is given for each turn, so that it may change from turn to turn. Between two
turns of the same one each other that may always take one has a turn, and more than one only if the
first may not always take one itself.
-/

namespace Cosiris.RoundRobin

variable {α : Type*} {q l₁ l₂ : List α} {a b c t : α} {p : α → Bool} {turns : List ((α → Bool) × α)}

theorem not_mem_of_split (h : (l₁ ++ c :: l₂).Nodup) : c ∉ l₁ := fun hc =>
  List.disjoint_of_nodup_append h hc List.mem_cons_self

theorem exists_first_turn (h : b ∈ turns.map Prod.snd) :
    ∃ u p v, turns = u ++ (p, b) :: v ∧ b ∉ u.map Prod.snd := by
  obtain ⟨u, v, hsplit, hu⟩ := List.eq_append_cons_of_mem h
  obtain ⟨u, w, rfl, rfl, hw⟩ := List.map_eq_append_iff.mp hsplit
  obtain ⟨⟨p, t⟩, v, rfl, rfl, rfl⟩ := List.map_eq_cons_iff.mp hw
  exact ⟨u, p, v, rfl, hu⟩

variable [DecidableEq α]

/-- The queue behind `c`, and round to `c`. -/
def after (q : List α) (c : α) : List α :=
  (q.dropWhile (· ≠ c)).tail ++ q.takeWhile (· ≠ c) ++ [c]

/-- Turns behind one of `c`: for each who may take it, and who does. -/
def Turns (q : List α) : α → List ((α → Bool) × α) → Prop
  | _, [] => True
  | c, (p, t) :: turns => (after q c).find? p = some t ∧ Turns q t turns

theorem after_append (h : c ∉ l₁) : after (l₁ ++ c :: l₂) c = l₂ ++ l₁ ++ [c] := by
  have hne : ∀ x ∈ l₁, decide (x ≠ c) = true := fun x hx => decide_eq_true fun hxc => h (hxc ▸ hx)
  unfold after
  rw [List.dropWhile_append_of_pos hne, List.takeWhile_append_of_pos hne]
  simp

/-- The search goes to the end of the queue, and then from its start. -/
theorem find_after (h : c ∉ l₁) :
    (after (l₁ ++ c :: l₂) c).find? p = (l₂.find? p).or ((l₁ ++ c :: l₂).find? p) := by
  rw [after_append h, List.append_assoc, List.find?_append, List.find?_append, List.find?_append]
  cases hl : l₂.find? p with
  | some t => rfl
  | none => simp [List.find?_cons, hl]

/-- All of the queue is behind `c`, and nothing else. -/
theorem mem_after_iff (hc : c ∈ q) : t ∈ after q c ↔ t ∈ q := by
  obtain ⟨u, v, rfl, hu⟩ := List.eq_append_cons_of_mem hc
  rw [after_append hu]
  simp only [List.mem_append, List.mem_cons]
  tauto

theorem Turns.mem (h : Turns q c turns) (hc : c ∈ q) : ∀ r ∈ turns, r.2 ∈ q := by
  induction turns generalizing c with
  | nil => exact fun r hr => absurd hr List.not_mem_nil
  | cons r turns ih =>
    have hr : r.2 ∈ q := (mem_after_iff hc).mp (List.mem_of_find?_eq_some h.1)
    exact List.forall_mem_cons.mpr ⟨hr, ih h.2 hr⟩

/-- Where the queue begins does not matter. -/
theorem after_rotate (h : (l₁ ++ l₂).Nodup) (hc : c ∈ l₁ ++ l₂) :
    after (l₁ ++ l₂) c = after (l₂ ++ l₁) c := by
  have hdisj := List.disjoint_of_nodup_append h
  rcases List.mem_append.mp hc with hc | hc
  · obtain ⟨u, v, rfl⟩ := List.append_of_mem hc
    have hu := not_mem_of_split h.of_append_left
    have hl : c ∉ l₂ ++ u := List.not_mem_append (hdisj hc) hu
    have hfront : u ++ c :: v ++ l₂ = u ++ c :: (v ++ l₂) := by simp
    have hback : l₂ ++ (u ++ c :: v) = l₂ ++ u ++ c :: v := by simp
    rw [hfront, hback, after_append hu, after_append hl]
    simp
  · obtain ⟨u, v, rfl⟩ := List.append_of_mem hc
    have hu := not_mem_of_split h.of_append_right
    have hl : c ∉ l₁ ++ u := List.not_mem_append (fun hcl => hdisj hcl hc) hu
    have hfront : u ++ c :: v ++ l₁ = u ++ c :: (v ++ l₁) := by simp
    have hback : l₁ ++ (u ++ c :: v) = l₁ ++ u ++ c :: v := by simp
    rw [hfront, hback, after_append hu, after_append hl]
    simp

/-- Two members of a queue cut it in two. -/
theorem exists_cut (h : q.Nodup) (ha : a ∈ q) (hb : b ∈ q) (hne : b ≠ a) : ∃ l₁ l₂,
    (a :: l₁ ++ b :: l₂).Nodup ∧
      ∀ c ∈ a :: l₁ ++ b :: l₂, after q c = after (a :: l₁ ++ b :: l₂) c := by
  obtain ⟨u, v, rfl⟩ := List.append_of_mem ha
  have hb : b ∈ v ++ u := by
    simp only [List.mem_append, List.mem_cons] at hb ⊢
    tauto
  obtain ⟨l₁, l₂, hcut⟩ := List.append_of_mem hb
  have hq : a :: l₁ ++ b :: l₂ = a :: v ++ u := by
    rw [List.cons_append, List.cons_append, hcut]
  refine ⟨l₁, l₂, hq ▸ List.nodup_append_comm.mp h, ?_⟩
  rw [hq]
  exact fun c hc => after_rotate h (List.mem_append.mpr (List.mem_append.mp hc).symm)

/-- The next turn is not behind one that may take it. -/
theorem find_between (h : (a :: l₁ ++ b :: l₂).Nodup) (hc : c ∈ a :: l₁) (hb : p b = true)
    (ht : (after (a :: l₁ ++ b :: l₂) c).find? p = some t) : t ∈ l₁ ∨ t = b := by
  obtain ⟨u, v, huv⟩ := List.append_of_mem hc
  have hu : c ∉ u := not_mem_of_split (huv ▸ h.of_append_left)
  have hv : v ⊆ l₁ := by
    cases u with
    | nil => exact fun x hx => (List.cons.inj huv).2 ▸ hx
    | cons x u => exact fun y hy => (List.cons.inj huv).2 ▸ by simp [hy]
  rw [huv, List.append_assoc, List.cons_append, after_append hu, List.append_assoc,
    List.append_assoc, List.find?_append, List.cons_append, List.find?_cons_of_pos hb] at ht
  cases hfind : v.find? p with
  | none =>
    rw [hfind] at ht
    exact .inr (Option.some.inj ht).symm
  | some x =>
    rw [hfind] at ht
    exact .inl (hv (Option.some.inj ht ▸ List.mem_of_find?_eq_some hfind))

/-- **Between two turns of the same one, each other that may always take a turn has one.** -/
theorem mem_between (h : q.Nodup) (ha : a ∈ q) (hb : b ∈ q) (hne : b ≠ a)
    (hturns : Turns q a (turns ++ [(p, a)])) (hmay : ∀ r ∈ turns ++ [(p, a)], r.1 b = true)
    (hlast : a ∉ turns.map Prod.snd) : b ∈ turns.map Prod.snd := by
  obtain ⟨l₁, l₂, hnodup, hafter⟩ := exists_cut h ha hb hne
  have hnot : a ∉ l₁ := fun hal => (List.nodup_cons.mp hnodup.of_append_left).1 hal
  -- up to a turn of `b`, the turns go on between `a` and `b`
  suffices hgo : ∀ c ∈ a :: l₁, Turns q c (turns ++ [(p, a)]) → b ∈ turns.map Prod.snd from
    hgo a List.mem_cons_self hturns
  clear hturns
  induction turns with
  | nil =>
    rintro c hc ⟨hfind, -⟩
    rw [hafter c (List.mem_append_left _ hc)] at hfind
    rcases find_between hnodup hc (hmay _ List.mem_cons_self) hfind with hmem | heq
    · exact absurd hmem hnot
    · exact absurd heq.symm hne
  | cons r turns ih =>
    obtain ⟨p', t⟩ := r
    rintro c hc ⟨hfind, hturns⟩
    rw [hafter c (List.mem_append_left _ hc)] at hfind
    rcases find_between hnodup hc (hmay _ List.mem_cons_self) hfind with hmem | rfl
    · have hnext := ih (fun r hr => hmay r (List.mem_cons_of_mem _ hr))
        (fun hal => hlast (List.mem_cons_of_mem _ hal)) t (List.mem_cons_of_mem _ hmem) hturns
      exact List.mem_cons_of_mem _ hnext
    · exact List.mem_cons_self

/-- What follows a turn. -/
theorem Turns.after_turn {turns' : List ((α → Bool) × α)}
    (h : Turns q c (turns ++ (p, t) :: turns')) :
    Turns q t turns' := by
  induction turns generalizing c with
  | nil => exact h.2
  | cons r turns ih => exact ih h.2

/-- What a turn follows, and the turn. -/
theorem Turns.up_to {turns' : List ((α → Bool) × α)} {r : (α → Bool) × α}
    (h : Turns q c (turns ++ r :: turns')) : Turns q c (turns ++ [r]) := by
  induction turns generalizing c with
  | nil => exact ⟨h.1, trivial⟩
  | cons r turns ih => exact ⟨h.1, ih h.2⟩

/-- **It has one turn if the first may always take one as well.** -/
theorem count_between (h : q.Nodup) (ha : a ∈ q) (hb : b ∈ q) (hne : b ≠ a)
    (hturns : Turns q a (turns ++ [(p, a)])) (hmay : ∀ r ∈ turns ++ [(p, a)], r.1 b = true)
    (hlast : a ∉ turns.map Prod.snd) (hfirst : ∀ r ∈ turns ++ [(p, a)], r.1 a = true) :
    (turns.map Prod.snd).count b = 1 := by
  obtain ⟨u, p', v, rfl, hu⟩ := exists_first_turn (mem_between h ha hb hne hturns hmay hlast)
  have hv : b ∉ v.map Prod.snd := by
    -- between that turn and a second one `a` would have one
    intro hbv
    obtain ⟨m, p'', w, rfl, hm⟩ := exists_first_turn hbv
    have hbetween : Turns q b (m ++ [(p'', b)]) := by
      rw [List.append_assoc, List.cons_append] at hturns
      have hafter := hturns.after_turn
      rw [List.append_assoc, List.cons_append] at hafter
      exact hafter.up_to
    have hmay : ∀ r ∈ m ++ [(p'', b)], r.1 a = true := fun r hr => by
      apply hfirst
      simp only [List.mem_append, List.mem_cons] at hr ⊢
      tauto
    have ham := mem_between h hb ha hne.symm hbetween hmay hm
    apply hlast
    simp only [List.map_append, List.map_cons, List.mem_append, List.mem_cons]
    tauto
  rw [List.map_append, List.map_cons, List.count_append, List.count_cons_self,
    List.count_eq_zero.mpr hu, List.count_eq_zero.mpr hv]

end Cosiris.RoundRobin
