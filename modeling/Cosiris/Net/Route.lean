import Cosiris.Lib.Masks
import Mathlib.Data.List.Nodup

/-!
# The routing table

`route_add` and `route_find` of `route.c`. The table is in descending order of the base address,
and of the mask where the base is the same; `route_find` takes the first route that matches. For
masks of leading ones this is the route with the longest mask. -/

namespace Cosiris.Net

/-- `struct route`. -/
structure Route where
  base : UInt32
  mask : UInt32
  gateway : UInt32
  netif : ℕ
  deriving DecidableEq

/-- `route_exists`. -/
def routeExists (base mask : UInt32) (table : List Route) : Bool :=
  table.any fun r => r.base = base ∧ r.mask = mask

/-- Where the loop of `route_add` stops: the new route goes before this one. -/
def Route.stops (r rt : Route) : Prop := rt.base < r.base ∨ r.base = rt.base ∧ rt.mask < r.mask

instance (r rt : Route) : Decidable (r.stops rt) := inferInstanceAs (Decidable (_ ∨ _))

/-- The loop of `route_add`, and `list_insert_before`. -/
def insertRoute (r : Route) : List Route → List Route
  | [] => [r]
  | rt :: rest => if r.stops rt then r :: rt :: rest else rt :: insertRoute r rest

/-- `route_add`; `alloc` says that `malloc` gives memory. -/
def routeAdd (base mask gateway : UInt32) (netif : ℕ) (alloc : Bool)
  (table : List Route) : Bool × List Route :=
  let base := base &&& mask
  if routeExists base mask table then (false, table)
  else if !alloc then (false, table)
  else (true, insertRoute ⟨base, mask, gateway, netif⟩ table)

/-- The mask of `n` leading ones. -/
def prefixMask (n : ℕ) : UInt32 := .ofNat (2 ^ 32 - 2 ^ (32 - n))

/-- The arguments of a call of `route_add`. -/
structure Added where
  base : UInt32
  mask : UInt32
  gateway : UInt32
  netif : ℕ
  alloc : Bool

/-- The table after some calls of `route_add`. -/
def routeTable (calls : List Added) : List Route :=
  calls.foldl (fun table c => (routeAdd c.base c.mask c.gateway c.netif c.alloc table).2) []

/-! ### The order of the table -/

/-- The table is in order, and its masks are of leading ones. -/
structure Ordered (table : List Route) : Prop where
  order : table.Pairwise Route.stops
  masks : ∀ r ∈ table, ∃ n ≤ 32, r.mask = prefixMask n

theorem Route.stops.trans {a b c : Route} (h : a.stops b) (h' : b.stops c) : a.stops c := by
  unfold Route.stops at *
  rcases h with h | ⟨h, hm⟩ <;> rcases h' with h' | ⟨h', hm'⟩
  · exact .inl (UInt32.lt_trans h' h)
  · exact .inl (h' ▸ h)
  · exact .inl (h ▸ h')
  · exact .inr ⟨h.trans h', UInt32.lt_trans hm' hm⟩

/-- Two routes that differ are in order, one way or the other. -/
theorem Route.stops_total {a b : Route} (h : ¬(a.base = b.base ∧ a.mask = b.mask))
    (hs : ¬a.stops b) :
    b.stops a := by
  unfold Route.stops at *
  grind

theorem mem_insertRoute {r x : Route} {table : List Route} :
    x ∈ insertRoute r table ↔ x = r ∨ x ∈ table := by
  induction table with
  | nil => simp [insertRoute]
  | cons rt rest ih =>
    rw [insertRoute]
    split_ifs
    · simp
    · simp only [List.mem_cons, ih]
      tauto

theorem pairwise_insertRoute {r : Route} {table : List Route} (h : table.Pairwise Route.stops)
    (hnew : routeExists r.base r.mask table = false) :
    (insertRoute r table).Pairwise Route.stops := by
  induction table with
  | nil => exact List.pairwise_singleton _ _
  | cons rt rest ih =>
    obtain ⟨hrt, hrest⟩ := List.pairwise_cons.mp h
    unfold routeExists at hnew
    rw [List.any_cons, Bool.or_eq_false_iff, decide_eq_false_iff_not] at hnew
    rw [insertRoute]
    split_ifs with hs
    · refine List.pairwise_cons.mpr ⟨fun x hx => ?_, h⟩
      rcases List.mem_cons.mp hx with rfl | hx
      · exact hs
      · exact hs.trans (hrt x hx)
    · refine List.pairwise_cons.mpr ⟨fun x hx => ?_, ih hrest hnew.2⟩
      rcases mem_insertRoute.mp hx with rfl | hx
      · exact Route.stops_total (fun he => hnew.1 ⟨he.1.symm, he.2.symm⟩) hs
      · exact hrt x hx

theorem Ordered.add {table : List Route} (h : Ordered table) (c : Added)
    (hm : ∃ n ≤ 32, c.mask = prefixMask n) :
    Ordered (routeAdd c.base c.mask c.gateway c.netif c.alloc table).2 := by
  unfold routeAdd
  dsimp only
  split_ifs with hex ha
  · exact h
  · exact h
  · refine ⟨pairwise_insertRoute h.order (by simpa using hex), fun r hr => ?_⟩
    rcases mem_insertRoute.mp hr with rfl | hr
    · exact hm
    · exact h.masks r hr

theorem Ordered.table {calls : List Added} (hm : ∀ c ∈ calls, ∃ n ≤ 32, c.mask = prefixMask n) :
    Ordered (routeTable calls) := by
  unfold routeTable
  suffices ∀ table, Ordered table → Ordered (calls.foldl (fun table c =>
      (routeAdd c.base c.mask c.gateway c.netif c.alloc table).2) table) from this []
        ⟨List.Pairwise.nil, by simp⟩
  induction calls with
  | nil => exact fun table h => h
  | cons c calls ih =>
    intro table h
    exact ih (fun c' hc' => hm c' (List.mem_cons_of_mem _ hc')) _
      (h.add c (hm c (List.mem_cons_self ..)))

/-! ### The longest mask -/

theorem toNat_prefixMask {n : ℕ} : (prefixMask n).toNat = 2 ^ 32 - 2 ^ (32 - n) := by
  have : 0 < 2 ^ (32 - n) := Nat.two_pow_pos _
  rw [prefixMask, UInt32.toNat_ofNat', Nat.mod_eq_of_lt (by omega)]

theorem toNat_and_prefixMask (ip : UInt32) (n : ℕ) :
    (ip &&& prefixMask n).toNat = blockStart (32 - n) ip.toNat := by
  rw [UInt32.toNat_and, toNat_prefixMask, land_two_pow_sub (by omega) ip.toNat_lt]

/-- A longer mask leaves a larger value. -/
theorem and_prefixMask_mono {n m : ℕ} (h : n ≤ m) (ip : UInt32) :
    ip &&& prefixMask n ≤ ip &&& prefixMask m := by
  rw [UInt32.le_iff_toNat_le, toNat_and_prefixMask, toNat_and_prefixMask]
  exact blockStart_anti (by omega) _

theorem prefixMask_lt_iff {n m : ℕ} (hn : n ≤ 32) (hm : m ≤ 32) :
    prefixMask n < prefixMask m ↔ n < m := by
  rw [UInt32.lt_iff_toNat_lt, toNat_prefixMask, toNat_prefixMask]
  have hn' : 2 ^ (32 - n) ≤ 2 ^ 32 := Nat.pow_le_pow_right (by omega) (by omega)
  have hm' : 2 ^ (32 - m) ≤ 2 ^ 32 := Nat.pow_le_pow_right (by omega) (by omega)
  have hiff : 2 ^ (32 - m) < 2 ^ (32 - n) ↔ 32 - m < 32 - n := Nat.pow_lt_pow_iff_right (by omega)
  omega

/-- Of two routes that match, the one that comes first has the longer mask. -/
theorem Route.stops.longer {r r' : Route} {ip : UInt32} {n n' : ℕ} (h : r.stops r') (hn : n ≤ 32)
    (hn' : n' ≤ 32)
    (hm : r.mask = prefixMask n) (hm' : r'.mask = prefixMask n') (hr : ip &&& r.mask = r.base)
    (hr' : ip &&& r'.mask = r'.base) : n' < n := by
  rw [hm] at hr
  rw [hm'] at hr'
  rcases h with hlt | ⟨-, hlt⟩
  · by_contra hle
    have := and_prefixMask_mono (Nat.le_of_not_lt hle) ip
    rw [hr, hr'] at this
    exact absurd hlt (UInt32.not_lt.mpr this)
  · rw [hm, hm', prefixMask_lt_iff hn' hn] at hlt
    exact hlt

end Cosiris.Net
