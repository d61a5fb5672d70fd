import Mathlib.Data.List.Perm.Basic
import Mathlib.Logic.Function.Basic

/-!
# Maps kept in slots

A finite map kept as a list of slots, each of which is free or holds a key with its
value. A key that is not there is put into a free slot, or into one more at the end, and
a key is removed by freeing its slot. As long as no key is in two slots, the order of the
slots does not matter: the two operations add a key to the map and take one out of it.
-/

namespace Cosiris.SlotMap

open Function

variable {κ ν : Type*} {l l' : List (Option (κ × ν))} {a : κ} {b : ν} {k : ℕ}

/-- No key is in two slots. -/
def Distinct (l : List (Option (κ × ν))) : Prop :=
  l.Pairwise fun o o' => ∀ x ∈ o, ∀ y ∈ o', x.1 ≠ y.1

/-- Slot `k` is set, or there is one more slot. -/
def put (l : List (Option (κ × ν))) (k : ℕ) (o : Option (κ × ν)) : List (Option (κ × ν)) :=
  l.take k ++ o :: l.drop (k + 1)

/-- The value in the first slot with the key. -/
def get [DecidableEq κ] (l : List (Option (κ × ν))) (a : κ) : Option ν :=
  l.findSome? fun o => o.bind fun x => if x.1 = a then some x.2 else none

/-! ### The order of the slots -/

theorem Distinct.perm (h : Distinct l) (hp : l.Perm l') : Distinct l' :=
  (hp.pairwise_iff fun hr x hx y hy => (hr y hy x hx).symm).mp h

theorem put_perm (l : List (Option (κ × ν))) (k : ℕ) (o : Option (κ × ν)) :
    (put l k o).Perm (o :: l.eraseIdx k) := by
  rw [List.eraseIdx_eq_take_drop_succ]
  exact List.perm_middle

theorem Distinct.eraseIdx (h : Distinct l) : Distinct (l.eraseIdx k) :=
  h.sublist (List.eraseIdx_sublist l k)

/-- A free slot holds nothing, so that the others hold everything. -/
theorem mem_eraseIdx_of_free {x : κ × ν} (hfree : ∀ h : k < l.length, l[k] = none) :
    some x ∈ l.eraseIdx k ↔ some x ∈ l := by
  by_cases hk : k < l.length
  · rw [← (List.getElem_cons_eraseIdx_perm hk).mem_iff, hfree hk, List.mem_cons]
    exact (or_iff_right (Option.some_ne_none x)).symm
  · rw [List.eraseIdx_of_length_le (Nat.le_of_not_lt hk)]

/-- A slot holds its key, and no other slot does. -/
theorem Distinct.mem_eraseIdx (h : Distinct l) (hk : k < l.length) (hx : l[k] = some (a, b))
    {x : κ × ν} : some x ∈ l.eraseIdx k ↔ some x ∈ l ∧ x.1 ≠ a := by
  have hp := List.getElem_cons_eraseIdx_perm hk
  rw [hx] at hp
  have hne : some x ∈ l.eraseIdx k → a ≠ x.1 := fun hm =>
    List.rel_of_pairwise_cons (h.perm hp.symm) hm (a, b) rfl x rfl
  rw [← hp.mem_iff, List.mem_cons]
  constructor
  · exact fun hm => ⟨.inr hm, (hne hm).symm⟩
  · rintro ⟨he | hm, hxa⟩
    · cases he
      exact absurd rfl hxa
    · exact hm

/-! ### Lookup -/

/-- Two slots with one key are one slot. -/
theorem Distinct.index_eq (h : Distinct l) {i j : ℕ} {b' : ν} (hi : l[i]? = some (some (a, b)))
    (hj : l[j]? = some (some (a, b'))) : i = j := by
  obtain ⟨hil, hi⟩ := List.getElem?_eq_some_iff.mp hi
  obtain ⟨hjl, hj⟩ := List.getElem?_eq_some_iff.mp hj
  rcases Nat.lt_trichotomy i j with hlt | rfl | hlt
  · exact absurd rfl (List.pairwise_iff_getElem.mp h i j hil hjl hlt (a, b) hi (a, b') hj)
  · rfl
  · exact absurd rfl (List.pairwise_iff_getElem.mp h j i hjl hil hlt (a, b') hj (a, b) hi)

section

variable [DecidableEq κ]

theorem mem_of_get (h : get l a = some b) : some (a, b) ∈ l := by
  obtain ⟨o, ho, hb⟩ := List.exists_of_findSome?_eq_some h
  obtain ⟨x, rfl, hx⟩ := Option.bind_eq_some_iff.mp hb
  split_ifs at hx with hxa
  cases hx
  exact hxa ▸ ho

theorem get_eq_none_iff : get l a = none ↔ ∀ b, some (a, b) ∉ l := by
  constructor
  · intro h b hm
    have := List.findSome?_eq_none_iff.mp h _ hm
    rw [Option.bind_some, if_pos rfl] at this
    cases this
  · intro h
    cases hg : get l a with
    | none => rfl
    | some b => exact absurd (mem_of_get hg) (h b)

/-- **The map is what the slots hold.** -/
theorem Distinct.get_eq_some_iff (h : Distinct l) : get l a = some b ↔ some (a, b) ∈ l := by
  refine ⟨mem_of_get, fun hm => ?_⟩
  cases hg : get l a with
  | none => exact absurd hm (get_eq_none_iff.mp hg b)
  | some b' =>
    obtain ⟨i, hi⟩ := List.mem_iff_getElem?.mp hm
    obtain ⟨j, hj⟩ := List.mem_iff_getElem?.mp (mem_of_get hg)
    obtain rfl := h.index_eq hi hj
    cases hi.symm.trans hj
    rfl

theorem get_congr (h' : Distinct l') {m : κ → Option ν}
    (hm : ∀ x, some x ∈ l' ↔ m x.1 = some x.2) : get l' = m := by
  funext a
  refine Option.ext fun b => ?_
  rw [h'.get_eq_some_iff]
  exact hm (a, b)

end

/-! ### The two operations -/

/-- A key that is not there is put into a free slot. -/
theorem Distinct.put_new (h : Distinct l) (hnew : ∀ b, some (a, b) ∉ l) :
    Distinct (put l k (some (a, b))) := by
  refine Distinct.perm (List.pairwise_cons.mpr ⟨fun o ho x hx y hy he => ?_, h.eraseIdx⟩)
    (put_perm l k _).symm
  cases hx
  cases hy
  cases y
  cases he
  exact hnew _ (List.mem_of_mem_eraseIdx ho)

/-- A slot is freed. -/
theorem Distinct.put_free (h : Distinct l) : Distinct (put l k none) :=
  Distinct.perm
    (List.pairwise_cons.mpr ⟨fun _ _ _ hx => absurd hx (Option.not_mem_none _), h.eraseIdx⟩)
    (put_perm l k _).symm

variable [DecidableEq κ]

/-- **A key is added.** -/
theorem Distinct.get_put_new (h : Distinct l) (hfree : ∀ h : k < l.length, l[k] = none)
    (hnew : get l a = none) : get (put l k (some (a, b))) = update (get l) a (some b) := by
  have hnew := get_eq_none_iff.mp hnew
  refine get_congr (h.put_new hnew) fun x => ?_
  rw [(put_perm l k _).mem_iff, List.mem_cons, mem_eraseIdx_of_free hfree]
  by_cases hx : x.1 = a
  · subst hx
    rw [update_self, Option.some_inj, Option.some_inj, or_iff_left (hnew x.2)]
    exact ⟨fun e => congrArg Prod.snd e.symm, fun e => e ▸ rfl⟩
  · rw [update_of_ne hx, h.get_eq_some_iff, or_iff_right]
    intro e
    exact hx (congrArg Prod.fst (Option.some.inj e))

/-- **A key is removed.** -/
theorem Distinct.get_put_free (h : Distinct l) (hk : k < l.length) (hx : l[k] = some (a, b)) :
    get (put l k none) = update (get l) a none := by
  refine get_congr h.put_free fun x => ?_
  rw [(put_perm l k _).mem_iff, List.mem_cons, or_iff_right (Option.some_ne_none x),
    h.mem_eraseIdx hk hx]
  by_cases hxa : x.1 = a
  · rw [hxa, update_self]
    simp
  · rw [update_of_ne hxa, h.get_eq_some_iff, and_iff_left hxa]

end Cosiris.SlotMap
