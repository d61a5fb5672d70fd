import Mathlib.Data.List.Basic
import Mathlib.Data.List.Infix

/-!
# Paths through maps

Every node has a map from keys to nodes. A list of keys leads from a node to the node that is
found by looking the keys up one after the other. When a key is put into one of the maps, or is
taken out of it, the paths that end with it, or go through it, change, and no others.
-/

namespace Cosiris.Paths

variable {ν κ : Type*} {m m' : ν → κ → Option ν} {P : κ → Prop} {i j p : ν} {k : κ}
    {ks ks' : List κ}

/-- The node to which the keys lead from node `i`. -/
def trail (m : ν → κ → Option ν) (i : ν) : List κ → Option ν
  | [] => some i
  | k :: ks => (m i k).bind fun j => trail m j ks

/-- How often the keys lead through node `r` on the way from node `i`. -/
def visits [DecidableEq ν] (m : ν → κ → Option ν) (r i : ν) : List κ → ℕ
  | [] => 0
  | k :: ks => (m i k).elim 0 fun j => (if j = r ∧ ks ≠ [] then 1 else 0) + visits m r j ks

/-- The keys lead through the entry of `p` for the key `k`. -/
def Passes (m : ν → κ → Option ν) (p : ν) (k : κ) (i : ν) : List κ → Prop
  | [] => False
  | c :: ks => i = p ∧ c = k ∨ ∃ j, m i c = some j ∧ Passes m p k j ks

@[simp] theorem trail_nil : trail m i [] = some i := rfl

theorem trail_cons : trail m i (k :: ks) = (m i k).bind fun j => trail m j ks := rfl

@[simp] theorem visits_nil [DecidableEq ν] : visits m p i ([] : List κ) = 0 := rfl

theorem visits_cons [DecidableEq ν] : visits m p i (k :: ks) =
    (m i k).elim 0 fun j => (if j = p ∧ ks ≠ [] then 1 else 0) + visits m p j ks := rfl

theorem trail_append : trail m i (ks ++ ks') = (trail m i ks).bind fun j => trail m j ks' := by
  induction ks generalizing i with
  | nil => rfl
  | cons c ks ih =>
    rw [List.cons_append, trail_cons, trail_cons, Option.bind_assoc]
    exact congrArg _ (funext fun _ => ih)

/-- A node without entries leads nowhere. -/
theorem trail_of_none (h : ∀ c, P c → m i c = none) (hks : ∀ c ∈ ks, P c) (hne : ks ≠ []) :
    trail m i ks = none := by
  cases ks with
  | nil => exact absurd rfl hne
  | cons c ks => rw [trail_cons, h c (hks c List.mem_cons_self), Option.bind_none]

/-- **A key is put** into the map of `p`, for a node without entries: the walks that end with this
key in `p` end in the node, and no other walk changes. -/
theorem trail_put [DecidableEq ν] [DecidableEq κ]
    (hp : ∀ c, P c → m' p c = if c = k then some j else m p c) (hnew : m p k = none) (hpj : p ≠ j)
    (hj : ∀ c, P c → m j c = none ∧ m' j c = none)
    (hrest : ∀ q, q ≠ p → q ≠ j → ∀ c, P c → m' q c = m q c) (hks : ∀ c ∈ ks, P c) :
    trail m' i ks =
      if ks.getLast? = some k ∧ trail m i ks.dropLast = some p then some j else trail m i ks := by
  induction ks generalizing i with
  | nil => simp
  | cons c ks ih =>
    have hc : P c := hks c List.mem_cons_self
    have hks : ∀ c ∈ ks, P c := fun x hx => hks x (List.mem_cons_of_mem c hx)
    by_cases hij : i = j
    · subst hij
      have hlast : ¬ ((c :: ks).getLast? = some k ∧ trail m i (c :: ks).dropLast = some p) := by
        rintro ⟨-, h⟩
        cases ks with
        | nil => exact hpj (Option.some.inj h).symm
        | cons d ks =>
          rw [List.dropLast_cons_cons, trail_cons, (hj c hc).1] at h
          cases h
      rw [if_neg hlast, trail_cons, trail_cons, (hj c hc).1, (hj c hc).2]
      rfl
    · cases ks with
      | nil =>
        show (m' i c).bind some = if some c = some k ∧
          some i = some p then some j else (m i c).bind some
        rw [Option.bind_fun_some, Option.bind_fun_some]
        by_cases hip : i = p
        · subst hip
          rw [hp c hc]
          by_cases hck : c = k
          · rw [if_pos hck, if_pos ⟨congrArg some hck, rfl⟩]
          · rw [if_neg hck, if_neg fun h => hck (Option.some.inj h.1)]
        · rw [hrest i hip hij c hc, if_neg fun h => hip (Option.some.inj h.2)]
      | cons d ks =>
        rw [List.getLast?_cons_cons, List.dropLast_cons_cons, trail_cons, trail_cons, trail_cons]
        by_cases hk : i = p ∧ c = k
        · -- the key leads to the new node, and no further
          obtain ⟨rfl, rfl⟩ := hk
          rw [hp c hc, if_pos rfl, hnew, Option.bind_some,
            trail_of_none (fun c hc => (hj c hc).2) hks (by simp)]
          simp
        · have hsame : m' i c = m i c := by
            by_cases hip : i = p
            · subst hip
              rw [hp c hc, if_neg fun h => hk ⟨rfl, h⟩]
            · exact hrest i hip hij c hc
          rw [hsame]
          cases m i c with
          | none => simp
          | some x =>
            rw [Option.bind_some, Option.bind_some, Option.bind_some]
            exact ih hks

/-- A key is taken out of the map of `p`: the walks through it end. -/
theorem trail_of_passes (hp : m' p k = none)
    (hrest : ∀ q c, P c → ¬ (q = p ∧ c = k) → m' q c = m q c)
    (hks : ∀ c ∈ ks, P c) (h : Passes m p k i ks) : trail m' i ks = none := by
  classical
  induction ks generalizing i with
  | nil => exact h.elim
  | cons c ks ih =>
    rw [trail_cons]
    by_cases hk : i = p ∧ c = k
    · rw [hk.1, hk.2, hp, Option.bind_none]
    · rcases h with h | ⟨x, hx, h⟩
      · exact absurd h hk
      · rw [hrest i c (hks c List.mem_cons_self) hk, hx, Option.bind_some]
        exact ih (fun x hx => hks x (List.mem_cons_of_mem c hx)) h

/-- A key is taken out of the map of `p`: the other walks do not change. -/
theorem trail_of_not_passes (hrest : ∀ q c, P c → ¬ (q = p ∧ c = k) → m' q c = m q c)
    (hks : ∀ c ∈ ks, P c) (h : ¬ Passes m p k i ks) : trail m' i ks = trail m i ks := by
  induction ks generalizing i with
  | nil => rfl
  | cons c ks ih =>
    rw [trail_cons, trail_cons, hrest i c (hks c List.mem_cons_self) fun hk => h (.inl hk)]
    cases hx : m i c with
    | none => rfl
    | some x =>
      exact ih (fun x hx => hks x (List.mem_cons_of_mem c hx)) fun hp => h (.inr ⟨x, hx, hp⟩)

end Cosiris.Paths
