import Cosiris.Cofs.Inode
import Cosiris.Lib.Ownership
import Mathlib.Tactic.DeriveFintype
import Mathlib.Data.Fintype.Sigma
import Mathlib.Data.Fintype.Sum
import Mathlib.Data.Finset.Card

/-!
# The blocks of a file

Where the block addresses of an inode are kept: in its array of addresses, in the
single indirect block, in the double indirect block and in the blocks that one
lists. A file system is sound when every address kept in some place of some inode
is that of a block of its own, marked in the bitmap, and nothing else but the
metadata is marked.
-/

namespace Cosiris.Cofs

open Function Prog

/-! ### Places -/

/-- The places of an inode that may hold a block address. -/
inductive Place where
  /-- Entry `j` of `addrs`: six direct addresses, the single and the double indirect block. -/
  | top (j : Fin 8)
  /-- An entry of the single indirect block. -/
  | one (k : Fin 128)
  /-- An entry of the double indirect block. -/
  | mid (m : Fin 128)
  /-- An entry of a block that the double indirect block lists. -/
  | two (m k : Fin 128)
  deriving DecidableEq, Fintype

namespace Place

/-- The place of the block that holds this place, if it is not in the inode. -/
def parent : Place → Option Place
  | top _ => none
  | one _ => some (top 6)
  | mid _ => some (top 7)
  | two m _ => some (mid m)

/-- The index of this place in the array that holds it. -/
def idx : Place → ℕ
  | top j => j
  | one k => k
  | mid m => m
  | two _ k => k

/-- The place is that of a block of data. -/
def Leaf : Place → Prop
  | top j => (j : ℕ) < 6
  | one _ => True
  | mid _ => False
  | two _ _ => True

/-- File block `f` is reached through this place. -/
def Covers : Place → ℕ → Prop
  | top j, f =>
      (j : ℕ) < 6 ∧ f = j ∨ (j : ℕ) = 6 ∧ 6 ≤ f ∧ f < 134 ∨ (j : ℕ) = 7 ∧ 134 ≤ f ∧ f < 16518
  | one k, f => f = 6 + k
  | mid m, f => 134 + 128 * m ≤ f ∧ f < 134 + 128 * m + 128
  | two m k, f => f = 134 + 128 * m + k

/-- The place of the address of file block `f`. -/
def leafOf (f : ℕ) : Place :=
  if f < 6 then top (Fin.ofNat 8 f)
  else if f < 134 then one (Fin.ofNat 128 (f - 6))
  else two (Fin.ofNat 128 ((f - 134) / 128)) (Fin.ofNat 128 ((f - 134) % 128))

theorem leaf_leafOf {f : ℕ} : (leafOf f).Leaf := by
  unfold leafOf
  split_ifs with h1 h2
  · show (Fin.ofNat 8 f : ℕ) < 6
    rw [Fin.val_ofNat]
    omega
  · trivial
  · trivial

theorem covers_leafOf {f : ℕ} (h : f < 16518) : (leafOf f).Covers f := by
  unfold leafOf
  split_ifs with h1 h2 <;> simp only [Covers, Fin.val_ofNat] <;> omega

theorem eq_leafOf_of_covers {p : Place} {f : ℕ} (hp : p.Leaf) (h : p.Covers f) : p = leafOf f := by
  cases p with
  | top j =>
    simp only [Leaf] at hp
    simp only [Covers] at h
    have hf : f = j := by omega
    subst hf
    rw [leafOf, if_pos hp]
    congr 1
    ext
    rw [Fin.val_ofNat, Nat.mod_eq_of_lt j.isLt]
  | one k =>
    simp only [Covers] at h
    have := k.isLt
    rw [leafOf, if_neg (by omega), if_pos (by omega)]
    congr 1
    ext
    rw [Fin.val_ofNat]
    omega
  | mid m => exact hp.elim
  | two m k =>
    simp only [Covers] at h
    have := k.isLt
    have := m.isLt
    rw [leafOf, if_neg (by omega), if_neg (by omega)]
    refine congrArg₂ two (Fin.ext ?_) (Fin.ext ?_)
    · rw [Fin.val_ofNat]
      omega
    · rw [Fin.val_ofNat]
      omega

/-- A place reaches what the places in its block reach. -/
theorem covers_parent {p q : Place} {f : ℕ} (hq : p.parent = some q) (h : p.Covers f) :
    q.Covers f := by
  cases p with
  | top j => simp [parent] at hq
  | one k =>
    obtain rfl := Option.some.inj hq
    have := k.isLt
    simp only [Covers] at *
    right; left
    exact ⟨rfl, by omega⟩
  | mid m =>
    obtain rfl := Option.some.inj hq
    have := m.isLt
    simp only [Covers] at *
    right; right
    exact ⟨rfl, by omega⟩
  | two m k =>
    obtain rfl := Option.some.inj hq
    have := k.isLt
    simp only [Covers] at *
    omega

end Place

/-! ### Addresses -/

/-- An entry of an indirect block, of which there may be none. -/
def entry (disk : ℕ → Block) (b k : ℕ) : ℕ := if b = 0 then 0 else word (disk b) k

/-- The address kept in a place of an inode, `0` for none. -/
def addrAt (disk : ℕ → Block) (addrs : ℕ → ℕ) : Place → ℕ
  | .top j => addrs j
  | .one k => entry disk (addrs 6) k
  | .mid m => entry disk (addrs 7) m
  | .two m k => entry disk (entry disk (addrs 7) m) k

@[simp] theorem entry_zero (disk : ℕ → Block) (k : ℕ) : entry disk 0 k = 0 := rfl

theorem entry_of_ne {disk : ℕ → Block} {b : ℕ} (h : b ≠ 0) (k : ℕ) :
    entry disk b k = word (disk b) k := if_neg h

theorem addrAt_of_parent_none {disk : ℕ → Block} {addrs : ℕ → ℕ} {p : Place} (h : p.parent = none) :
    addrAt disk addrs p = addrs p.idx := by
  cases p with
  | top j => rfl
  | _ => simp [Place.parent] at h

theorem addrAt_of_parent_some {disk : ℕ → Block} {addrs : ℕ → ℕ} {p q : Place}
    (h : p.parent = some q) :
    addrAt disk addrs p = entry disk (addrAt disk addrs q) p.idx := by
  cases p with
  | top j => simp [Place.parent] at h
  | one k => obtain rfl := Option.some.inj h; rfl
  | mid m => obtain rfl := Option.some.inj h; rfl
  | two m k => obtain rfl := Option.some.inj h; rfl

/-- An address in an indirect block needs that block. -/
theorem addrAt_parent_ne_zero {disk : ℕ → Block} {addrs : ℕ → ℕ} {p q : Place}
    (h : p.parent = some q) (hp : addrAt disk addrs p ≠ 0) : addrAt disk addrs q ≠ 0 := by
  intro e
  rw [addrAt_of_parent_some h, e] at hp
  exact hp rfl

theorem addrAt_zero (disk : ℕ → Block) (p : Place) : addrAt disk (fun _ => 0) p = 0 := by
  cases p <;> rfl

theorem Place.not_leaf_of_parent {p q : Place} (h : p.parent = some q) : ¬ q.Leaf := by
  cases p with
  | top j => simp [parent] at h
  | one k => obtain rfl := Option.some.inj h; simp [Leaf]
  | mid m => obtain rfl := Option.some.inj h; simp [Leaf]
  | two m k => obtain rfl := Option.some.inj h; simp [Leaf]

/-- Induction from the inode's own places down to the entries of their blocks. -/
theorem Place.rec_parent {motive : Place → Prop} (top : ∀ p, p.parent = none → motive p)
    (sub : ∀ p q, p.parent = some q → motive q → motive p) (p : Place) : motive p := by
  cases p with
  | top j => exact top _ rfl
  | one k => exact sub _ _ rfl (top _ rfl)
  | mid m => exact sub _ _ rfl (top _ rfl)
  | two m k => exact sub _ _ rfl (sub _ _ rfl (top _ rfl))

/-- Two places in the same array are told apart by their indices. -/
theorem Place.eq_of_parent_idx {p q : Place} (h : p.parent = q.parent) (hi : p.idx = q.idx) :
    p = q := by
  cases p <;> cases q <;> simp_all [parent, idx, Fin.ext_iff]

/-- The addresses depend only on the indirect blocks. -/
theorem addrAt_congr {disk disk' : ℕ → Block} {addrs : ℕ → ℕ}
    (h : ∀ p, ¬ p.Leaf → addrAt disk addrs p ≠ 0 →
      disk' (addrAt disk addrs p) = disk (addrAt disk addrs p)) (p : Place) :
    addrAt disk' addrs p = addrAt disk addrs p := by
  induction p using Place.rec_parent with
  | top p hp => rw [addrAt_of_parent_none hp, addrAt_of_parent_none hp]
  | sub p q hq ih =>
    rw [addrAt_of_parent_some hq, addrAt_of_parent_some hq, ih]
    by_cases h0 : addrAt disk addrs q = 0
    · rw [h0, entry_zero, entry_zero]
    · rw [entry_of_ne h0, entry_of_ne h0, h q (Place.not_leaf_of_parent hq) h0]

/-! ### Writing an address -/

/-- `addrs'` and `disk'` are `addrs` and `disk` with `v` written in place `p`. -/
def Place.Written (p : Place) (v : ℕ) (disk : ℕ → Block) (addrs : ℕ → ℕ) (disk' : ℕ → Block)
  (addrs' : ℕ → ℕ) :
    Prop :=
  match p.parent with
  | none => addrs' = update addrs p.idx v
  | some q => addrs' = addrs ∧ addrAt disk addrs q ≠ 0 ∧
      disk' (addrAt disk addrs q) = setWord (disk (addrAt disk addrs q)) p.idx v

theorem Place.idx_lt_of_parent_none {p : Place} (h : p.parent = none) : p.idx < 8 := by
  cases p with
  | top j => exact j.isLt
  | _ => simp [parent] at h

theorem Place.Written.spare {p : Place} {v : ℕ} {disk disk' : ℕ → Block} {addrs addrs' : ℕ → ℕ}
    (h : p.Written v disk addrs disk' addrs') {k : ℕ} (hk : 8 ≤ k) : addrs' k = addrs k := by
  unfold Place.Written at h
  split at h
  · rename_i hp
    have := Place.idx_lt_of_parent_none hp
    rw [h, update_of_ne (by omega)]
  · rw [h.1]

/-- The block that is written when an address is written in place `p`. -/
def Place.home (p : Place) (disk : ℕ → Block) (addrs : ℕ → ℕ) : ℕ :=
  match p.parent with
  | none => 0
  | some q => addrAt disk addrs q

/-- Writing an address in a place that leads nowhere changes the address kept in that place
and no other. -/
theorem addrAt_written {disk disk' : ℕ → Block} {addrs addrs' : ℕ → ℕ} {p : Place} {v : ℕ}
    (hw : p.Written v disk addrs disk' addrs') (hv : v < 2 ^ 32)
    (hzero : v ≠ 0 → disk' v = zeroBlock)
    (hinj : ∀ q q', addrAt disk addrs q ≠ 0 → addrAt disk addrs q = addrAt disk addrs q' → q = q')
    (hchild : ∀ q, q.parent = some p → addrAt disk addrs q = 0)
    (hsame : ∀ q, addrAt disk addrs q ≠ 0 → addrAt disk addrs q ≠ p.home disk addrs →
      disk' (addrAt disk addrs q) = disk (addrAt disk addrs q)) (q : Place) :
    addrAt disk' addrs' q = update (addrAt disk addrs) p v q := by
  induction q using Place.rec_parent with
  | top q hq =>
    rw [addrAt_of_parent_none hq]
    unfold Place.Written at hw
    split at hw
    · rename_i hp
      by_cases hqp : q = p
      · rw [hqp, update_self, hw, update_self]
      · have hidx : q.idx ≠ p.idx := fun e => hqp (Place.eq_of_parent_idx (hq.trans hp.symm) e)
        rw [update_of_ne hqp, hw, update_of_ne hidx, addrAt_of_parent_none hq]
    · rename_i r hp
      have hqp : q ≠ p := by
        rintro rfl
        rw [hp] at hq
        cases hq
      rw [update_of_ne hqp, hw.1, addrAt_of_parent_none hq]
  | sub q r hr ih =>
    rw [addrAt_of_parent_some hr, ih]
    by_cases hrp : r = p
    · subst hrp
      have hqp : q ≠ r := by
        rintro rfl
        cases q <;> simp [Place.parent] at hr
      rw [update_self, update_of_ne hqp, hchild q hr]
      by_cases hv0 : v = 0
      · rw [hv0, entry_zero]
      · rw [entry_of_ne hv0, hzero hv0, word_zeroBlock]
    · rw [update_of_ne hrp]
      by_cases hr0 : addrAt disk addrs r = 0
      · have hq0 : addrAt disk addrs q = 0 := by rw [addrAt_of_parent_some hr, hr0, entry_zero]
        have hqp : q ≠ p := by
          rintro rfl
          unfold Place.Written at hw
          rw [hr] at hw
          exact hw.2.1 hr0
        rw [hr0, entry_zero, update_of_ne hqp, hq0]
      · rw [entry_of_ne hr0]
        by_cases hh : addrAt disk addrs r = p.home disk addrs
        · unfold Place.home at hh
          unfold Place.Written at hw
          split at hh
          · exact absurd hh hr0
          · rename_i s hs
            rw [hs] at hw
            have hrs := hinj _ _ hr0 hh
            subst hrs
            rw [hw.2.2]
            by_cases hqp : q = p
            · rw [hqp, update_self, word_setWord_self _ _ hv]
            · have hidx : q.idx ≠ p.idx :=
                fun e => hqp (Place.eq_of_parent_idx (hr.trans hs.symm) e)
              rw [update_of_ne hqp, word_setWord_ne _ _ hidx, addrAt_of_parent_some hr,
                entry_of_ne hr0]
        · have hqp : q ≠ p := by
            rintro rfl
            unfold Place.home at hh
            rw [hr] at hh
            exact hh rfl
          rw [hsame r hr0 hh, update_of_ne hqp, addrAt_of_parent_some hr, entry_of_ne hr0]

end Cosiris.Cofs
