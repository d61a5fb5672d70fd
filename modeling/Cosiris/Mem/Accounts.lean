import Cosiris.Mem.Release
import Mathlib.Data.List.Basic

/-!
# What cloning takes, freeing gives back

`free_directory` after `clone_directory`. The two walk the directory on their own, and agree on
the entries that belong to the new one: the frames that the clone took are freed, each of them
once, and no other (`free_directory_undoes_clone`).
-/

namespace Cosiris.Mem

open Prog

section

variable {m m' m₀ : Machine} {t d f page : ℕ} {free free' used rest gone : List ℕ} {x : Mapping}

/-! ### The current address space -/

theorem AddressSpace.of_same (h : AddressSpace m t free) (hs : Sane m' t free')
    (hdir : m'.dir = m.dir) (hsame : ∀ f, f ∉ free → m'.mem f = m.mem f)
    (hsub : ∀ f ∈ free', f ∈ free) :
    AddressSpace m' t free' where
  toSane := hs
  table i hi hp := by
    rw [hdir, hsame _ h.dir_notMem] at hp ⊢
    exact fun hm => h.table i hi hp (hsub _ hm)
  page page x hp hx := by
    rw [hdir, h.walk_eq hsame (by omega)] at hx
    obtain ⟨h1, h2⟩ := h.page page x hp hx
    exact ⟨fun hm => h1 (hsub _ hm), h2⟩

/-- Between `m₁`, where `rest` are the free frames, and `m'` the frames `gone` were freed, each of
them once. -/
structure FreedOnce (m₁ : Machine) (t : ℕ) (rest gone free' : List ℕ) (m' : Machine) : Prop where
  space : AddressSpace m' t free'
  dir : m'.dir = m₁.dir
  perm : free'.Perm (gone ++ rest)
  nodup : (gone ++ rest).Nodup
  count : m'.numPages = m₁.numPages + gone.length

/-- Frames that were freed are none that the directory uses. -/
theorem Released.once {m₁ : Machine} (h : Released m₁ t gone rest m')
    (hk : AddressSpace m t free) (hdir : m₁.dir = m.dir)
    (hsame : ∀ f, f ∉ free → m₁.mem f = m.mem f) (hnd : (gone ++ rest).Nodup)
    (hsub : ∀ f ∈ gone ++ rest, f ∈ free) :
    ∃ free', FreedOnce m₁ t rest gone free' m' := by
  obtain ⟨free', hperm, hsane⟩ := h.sane
  refine ⟨free', hk.of_same hsane (h.dir.trans hdir) (fun f hf => ?_) fun f hf =>
    hsub f (hperm.subset hf), h.dir, hperm, hnd, h.pages⟩
  rw [h.same f fun hm => hf (hsub f (List.mem_append_left _ hm)), hsame f hf]

/-! ### The clone -/

theorem Cloned.space (h : Cloned m t d used rest m') (ha : AddressSpace m t (d :: (used ++ rest))) :
    AddressSpace m' t rest :=
  ha.of_same h.sane h.dir h.same fun f hf => by simp [hf]

/-- **`free_directory` undoes `clone_directory`**: it frees the frames that the clone took, each
of them once and none that the current directory maps, and the free frames and their number are
those from before. -/
theorem free_directory_undoes_clone (m : Machine) (t : ℕ) (free : List ℕ)
    (h : AddressSpace m t free) (hpages : free.length ≤ m.numPages) :
    wp cloneDirectory (fun a m₁ => ∃ rest, AddressSpace m₁ t rest ∧
        wp (freeDirectory a) (fun _ m' => ∃ gone free', FreedOnce m₁ t rest gone free' m' ∧
          (∀ page x, page < 2 ^ 20 → walk m₁.mem m₁.dir page = some x → x.frame ∉ gone) ∧
          free'.Perm free ∧ m'.numPages = m.numPages) (fun _ _ => False) m₁)
      (fun e _ => e = outOfFrames ∧ free.length < (owned m.mem m.dir).length) m := by
  cases free with
  | nil =>
    have hnil := fun Q E => h.wp_frameCalloc_nil (Q := Q) (E := E)
    rw [cloneDirectory, wp_bind, hnil]
    exact ⟨rfl, Nat.succ_pos _⟩
  | cons d free =>
  have hspec := cloneDirectory_spec h.toSane h.source
  refine hspec.mono ?_ fun e _ he => ⟨he.1, by simp only [owned, List.length_cons]; omega⟩
  rintro a m₁ ⟨rfl, used, rest, rfl, hc, hcount⟩
  have ha := hc.space h
  refine ⟨rest, ha, ?_⟩
  have hnd : (owned m₁.mem d ++ rest).Nodup := by rw [hc.frames]; exact h.nodup
  have hsub : ∀ f ∈ owned m₁.mem d ++ rest, f ∈
    d :: (used ++ rest) := fun f hf => by rwa [hc.frames] at hf
  have hx : Doomed m₁ t d rest := by
    refine ⟨hnd, fun f hf => ?_⟩
    have hm := hsub f (List.mem_append_left _ hf)
    refine ⟨h.chain.ne_zero hm, fun e => h.dir_notMem ?_, fun e => h.table_notMem (e ▸ hm)⟩
    rwa [← hc.dir, ← e]
  refine (freeDirectory_spec hc.sane hx).mono (fun _ m' hr => ?_) fun _ _ he => he
  obtain ⟨free', ho⟩ := hr.once h hc.dir hc.same hnd hsub
  refine ⟨owned m₁.mem d, free', ho, fun page x hp hw hm => ?_, ?_, ?_⟩
  · rw [hc.dir, h.walk_eq hc.same hp] at hw
    exact h.frame_notMem hp hw (hsub _ (List.mem_append_left _ hm))
  · rw [← List.cons_append, ← hc.frames]
    exact ho.perm
  · have := hcount (m.numPages - (d :: (used ++ rest)).length) (by omega)
    rw [ho.count, this, hc.frames]
    simp only [List.length_cons, List.length_append] at hpages ⊢
    omega

/-- The small machine forks, and the child ends. -/
theorem free_directory_undoes_clone_small :
    AddressSpace smallMachine 2 [5, 6, 7, 8] ∧
      ∃ a m₁ m' free', cloneDirectory smallMachine = .ok a m₁ ∧
      freeDirectory a m₁ = .ok () m' ∧ Sane m' 2 free' ∧ free'.Perm [5, 6, 7, 8] ∧
        m'.numPages = 4 := by
  have hlen : (owned smallMem 1).length = 4 := by decide +kernel
  have hundo :=
    free_directory_undoes_clone smallMachine 2 [5, 6, 7, 8] smallMachine_space (by decide)
  obtain ⟨a, m₁, hclone, rest, -, hfree⟩ := (hundo.mono (fun _ _ h => h) fun _ _ he => by
    have := he.2
    change 4 < (owned smallMem 1).length at this
    omega : wp cloneDirectory _ (fun _ _ => False) smallMachine).returns
  obtain ⟨_, m', hfree, gone, free', ho, -, hperm, hpages⟩ := hfree.returns
  exact ⟨smallMachine_space, a, m₁, m', free', hclone, hfree, ho.space.toSane, hperm, hpages⟩

end

end Cosiris.Mem
