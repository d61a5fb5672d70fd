import Cosiris.Mem.Accounts

/-!
# The directories of threads

`thread.c` has a pair of its own for the directory of a thread: `thread_clone_directory` clones the
entries of the two stacks, and links every other one, and `thread_free_directory` frees what was
cloned. The two do not agree on the entry where the kernel heap ends, 896: it is cloned (`>=`),
and not freed (`>`). The frames are all given back exactly when the current directory has
nothing there (`thread_directory_released_iff`).
-/

namespace Cosiris.Mem

open Prog

/-- The body of the loop of `thread_clone_directory`. -/
def threadCloneEntry (newDir pdIdx : ℕ) : MemM Unit := do
  let pde ← vread pdirPage pdIdx
  if pde % 2 = 1 then
    if 63 ≤ pdIdx ∧ pdIdx < 64 then clonePde newDir pdIdx
    else if 896 ≤ pdIdx then clonePde newDir pdIdx
    else linkPde newDir pdIdx

/-- `thread_clone_directory`. -/
def threadCloneDirectory : MemM ℕ := do
  let newDir ← frameCalloc
  upTo (threadCloneEntry newDir) 1023
  recursivelyMapPageDirectory newDir
  return newDir

/-- The body of the loop of `thread_free_directory`. -/
def threadFreeEntry (dir pdIdx : ℕ) : MemM Unit :=
  if 63 ≤ pdIdx ∧ pdIdx < 64 then freePde dir pdIdx
  else if pdIdx > 896 then freePde dir pdIdx
  else pure ()

/-- `thread_free_directory`. -/
def threadFreeDirectory (dir : ℕ) : MemM Unit := do
  upTo (threadFreeEntry dir) 1023
  frameFree dir

/-- The entries that a thread has for itself: those of the stacks. -/
def ThreadCloned (pdIdx : ℕ) : Prop := pdIdx = 63 ∨ 896 ≤ pdIdx

/-- The entries that are freed with a thread. -/
def ThreadFreed (pdIdx : ℕ) : Prop := pdIdx = 63 ∨ 896 < pdIdx

instance : DecidablePred ThreadCloned := fun _ => inferInstanceAs (Decidable (_ ∨ _))

instance : DecidablePred ThreadFreed := fun _ => inferInstanceAs (Decidable (_ ∨ _))

/-- The frames that belong to those of the first `n` entries that are in `own`. -/
def classFrames (own : ℕ → Prop) [DecidablePred own] (mem : Memory) (d n : ℕ) : List ℕ :=
  (List.range n).flatMap fun i => if own i then slotFrames mem d i else []

section

variable {m m' m₀ : Machine} {t d n : ℕ} {used rest rest' new gone free : List ℕ}
    {mem mem' : Memory} {own : ℕ → Prop}
  [DecidablePred own] {E : Halt → Machine → Prop}

theorem ThreadCloned.notLinked {i : ℕ} (h : ThreadCloned i) : ¬Linked i := by
  unfold ThreadCloned at h
  unfold Linked
  omega

theorem ThreadFreed.cloned {i : ℕ} (h : ThreadFreed i) : ThreadCloned i := by
  unfold ThreadFreed at h
  unfold ThreadCloned
  omega

theorem threadCloneEntry_eq (newDir pdIdx : ℕ) : threadCloneEntry newDir pdIdx = (do
    let pde ← vread pdirPage pdIdx
    if pde % 2 =
      1 then if ThreadCloned pdIdx then clonePde newDir pdIdx else linkPde newDir pdIdx) := by
  have h : ThreadCloned pdIdx ↔ (63 ≤ pdIdx ∧ pdIdx < 64) ∨ 896 ≤ pdIdx := by
    unfold ThreadCloned
    omega
  simp only [threadCloneEntry, h, ite_or]

theorem threadFreeEntry_eq (dir pdIdx : ℕ) :
    threadFreeEntry dir pdIdx = if ThreadFreed pdIdx then freePde dir pdIdx else pure () := by
  have h : ThreadFreed pdIdx ↔ (63 ≤ pdIdx ∧ pdIdx < 64) ∨ 896 < pdIdx := by
    unfold ThreadFreed; omega
  simp only [threadFreeEntry, h, ite_or, gt_iff_lt]

theorem classFrames_succ :
    classFrames own mem d (n + 1) =
      classFrames own mem d n ++ if own n then slotFrames mem d n else [] := by
  unfold classFrames
  rw [List.range_succ, List.flatMap_append]
  simp

theorem classFrames_mono {k : ℕ} (h : n ≤ k) :
    classFrames own mem d n <+: classFrames own mem d k := by
  induction k, h using Nat.le_induction with
  | base => exact List.prefix_refl _
  | succ k _ ih =>
    rw [classFrames_succ]
    exact ih.trans (List.prefix_append _ _)

theorem mem_classFrames {i : ℕ} (hi : i < n) (ho : own i) :
    ∀ f ∈ slotFrames mem d i, f ∈ classFrames own mem d n :=
  fun f hf => List.mem_flatMap.mpr ⟨i, List.mem_range.mpr hi, by rwa [if_pos ho]⟩

theorem classFrames_congr (hd : ∀ i, i < n → own i → mem' d i = mem d i)
    (h : ∀ f ∈ classFrames own mem d n, mem' f = mem f) :
    classFrames own mem' d n = classFrames own mem d n := by
  unfold classFrames
  refine List.flatMap_congr fun i hi => ?_
  have hi := List.mem_range.mp hi
  split
  · rename_i ho
    exact slotFrames_congr (fun _ => hd i hi ho) fun f hf => h f (mem_classFrames hi ho f hf)
  · rfl

/-- What is freed is what was cloned, without the frames of entry 896. -/
theorem threadFrames_perm :
    (classFrames ThreadCloned mem d n).Perm
      (classFrames ThreadFreed mem d n ++ if 896 < n then slotFrames mem d 896 else []) := by
  induction n with
  | zero => exact .refl _
  | succ n ih =>
    rw [classFrames_succ, classFrames_succ]
    by_cases h : n = 896
    · subst h
      rw [if_neg (Nat.lt_irrefl _), List.append_nil] at ih
      rw [if_pos (by decide), if_neg (by decide), if_pos (by decide), List.append_nil]
      exact ih.append_right _
    · have hiff : ThreadCloned n ↔ ThreadFreed n := by unfold ThreadCloned ThreadFreed; omega
      have hlt : 896 < n + 1 ↔ 896 < n := by omega
      simp only [hiff, hlt]
      refine (ih.append_right _).trans ?_
      rw [List.append_assoc, List.append_assoc]
      exact List.perm_append_comm.append_left _

/-! ### Cloning -/

/-- The first `n` entries of the current directory cloned or linked to the directory in frame `d`,
with the frames `used`. -/
structure ThreadCloning (m₀ : Machine) (t d n : ℕ) (used rest : List ℕ) (m : Machine) : Prop
    extends Midway m₀ t d used rest m where
  frames : classFrames ThreadCloned m.mem d n = used
  linked : ∀ i, i < n → ¬ThreadCloned i →
      m.mem d i = if m₀.mem m₀.dir i % 2 = 1 then m₀.mem m₀.dir i else 0
  cloned : ∀ i, i < n → ThreadCloned i → m.mem d i % 2 = m₀.mem m₀.dir i % 2
  todo : ∀ i, n ≤ i → m.mem d i = 0
  count : used.length = (classFrames ThreadCloned m₀.mem m₀.dir n).length

/-- One more entry is written. -/
theorem ThreadCloning.extend (h : ThreadCloning m₀ t d n used rest m) (hd : d ∉ used)
    (hnd : ∀ f ∈ used, f ∉ rest)
    (hx : Extended t d n new rest' rest m m')
    (frames : (if ThreadCloned n then slotFrames m'.mem d n else []) = new)
    (linked : ¬ThreadCloned n → m'.mem d n = if m₀.mem m₀.dir n % 2 = 1 then m₀.mem m₀.dir n else 0)
    (cloned : ThreadCloned n → m'.mem d n % 2 = m₀.mem m₀.dir n % 2)
    (count : new.length = (if ThreadCloned n then slotFrames m₀.mem m₀.dir n else []).length) :
    ThreadCloning m₀ t d (n + 1) (used ++ new) rest' m' := by
  have hkeep : ∀ f ∈ used, m'.mem f = m.mem f :=
    fun f hf => hx.same f (fun e => hd (e ▸ hf)) (hnd f hf)
  have hframes : classFrames ThreadCloned m'.mem d n = used := by
    rw [← h.frames]
    exact classFrames_congr (fun i hi _ => hx.slots i (by omega)) fun f hf =>
      hkeep f (h.frames ▸ hf)
  refine ⟨⟨hx.sane, hx.dir.trans h.dir, hx.heapEnd.trans h.heapEnd, fun f hf => ?_⟩,
    ?_, fun i hi ho => ?_, fun i hi ho => ?_, fun i hi => ?_, ?_⟩
  · rw [List.append_assoc, hx.list] at hf
    simp only [List.mem_cons, List.mem_append, not_or] at hf
    rw [hx.same f hf.1 hf.2.2]
    exact h.same f (by simp [hf])
  · rw [classFrames_succ, hframes, frames]
  · rcases Nat.lt_succ_iff_lt_or_eq.mp hi with hi | rfl
    · rw [hx.slots i (by omega)]
      exact h.linked i hi ho
    · exact linked ho
  · rcases Nat.lt_succ_iff_lt_or_eq.mp hi with hi | rfl
    · rw [hx.slots i (by omega)]
      exact h.cloned i hi ho
    · exact cloned ho
  · rw [hx.slots i (by omega)]
    exact h.todo i (by omega)
  · rw [classFrames_succ, List.length_append, List.length_append, h.count, count]

/-- One round of the loop of `thread_clone_directory`. -/
theorem ThreadCloning.step (hr : Ready m₀ t d (used ++ rest))
    (h : ThreadCloning m₀ t d n used rest m) (hn : n < 1023) :
    wp (threadCloneEntry (4096 * d) n) (fun _ m' => ∃ used' rest', used' ++ rest' = used ++ rest ∧
      ThreadCloning m₀ t d (n + 1) used' rest' m')
      (fun e _ => e = outOfFrames ∧
        (used ++ rest).length < (classFrames ThreadCloned m₀.mem m₀.dir 1023).length) m := by
  obtain ⟨hd, hnd⟩ := List.nodup_cons.mp hr.nodup
  have hdu : d ∉ used := fun hm => hd (by simp [hm])
  have hur : ∀ f ∈ used, f ∉ rest := fun f hf hf' => (List.nodup_append.mp hnd).2.2 f hf f hf' rfl
  have hmid := h.toMidway
  have hdir := hmid.entry hr n
  obtain ⟨hdd, hdt⟩ := hmid.ne hr
  have hz := h.todo n le_rfl
  have hmono := (@classFrames_mono m₀.dir (n + 1) m₀.mem ThreadCloned _ 1023 hn).length_le
  rw [classFrames_succ, List.length_append, ← h.count] at hmono
  simp only [threadCloneEntry_eq, wp_bind, h.sane.rooted.wp_pdir, hdir]
  by_cases hp : m₀.mem m₀.dir n % 2 = 1
  case neg =>
    rw [if_neg hp, wp_pure]
    have hf : slotFrames m.mem d n = [] := if_neg fun hs => by omega
    have hf₀ : slotFrames m₀.mem m₀.dir n = [] := if_neg fun hs => hp hs.2
    exact ⟨used ++ [],
      rest, by simp, h.extend hdu hur (.refl h.sane) (by rw [hf, ite_self])
          (fun _ => by rw [if_neg hp, hz])
      (fun _ => by omega) (by rw [hf₀, ite_self])⟩
  rw [if_pos hp]
  by_cases hc : ThreadCloned n
  case neg =>
    rw [if_neg hc, h.sane.rooted.wp_linkPde hdd hdt, hdir]
    exact ⟨used ++ [], rest, by simp, h.extend hdu hur (.write (hmid.write hr _)) (if_neg hc)
      (fun _ => by rw [if_pos hp]; exact Memory.set_self) (fun ho => absurd ho hc)
      (by rw [if_neg hc])⟩
  rw [if_pos hc] at hmono ⊢
  refine (hmid.clonePde hr hn hp hc.notLinked).mono ?_ fun e _ he =>
    ⟨he.1, by rw [List.length_append]; omega⟩
  rintro - m' ⟨new, rest', hx, hf, hdone, hcount⟩
  refine ⟨used ++ new,
    rest', by rw [List.append_assoc, hx.list], h.extend hdu hur hx (by rw [if_pos hc, hf])
    (fun ho => absurd hc ho) (fun _ => ?_) (by rw [if_pos hc, hcount])⟩
  rw [SlotCopy, if_neg (by omega), if_neg hc.notLinked] at hdone
  omega

/-- The directory in frame `d` is that of a new thread, with the frames `used`. -/
structure ThreadCloneOf (m₀ : Machine) (t d : ℕ) (used rest : List ℕ) (m : Machine) : Prop
    extends Midway m₀ t d used rest m where
  frames : classFrames ThreadCloned m.mem d 1023 = used
  linked : ∀ i, i < 1023 → ¬ThreadCloned i →
      m.mem d i = if m₀.mem m₀.dir i % 2 = 1 then m₀.mem m₀.dir i else 0
  cloned : ∀ i, i < 1023 → ThreadCloned i → m.mem d i % 2 = m₀.mem m₀.dir i % 2

/-- **`thread_clone_directory`** makes the directory of a thread, or finds too few free frames. -/
theorem threadCloneDirectory_spec (hs : Sane m t (d :: free)) (hsrc : Source m t (d :: free)) :
    wp threadCloneDirectory (fun a m' => a = 4096 * d ∧ ∃ used rest, used ++ rest = free ∧
      ThreadCloneOf m t d used rest m')
      (fun e _ => e = outOfFrames ∧
        free.length < (classFrames ThreadCloned m.mem m.dir 1023).length)
        m := by
  have hr : Ready m t d free := ⟨hsrc, hs.dir_notMem, hs.table_notMem, hs.nodup⟩
  obtain ⟨hdd, hdt⟩ := hs.head_ne
  have hstart : ThreadCloning m t d 0 [] free (m.take d fun _ => 0) := by
    refine ⟨⟨hs.take _, rfl, rfl, fun f hf => ?_⟩,
      rfl, fun i hi => by omega, fun i hi => by omega, fun i _ => ?_, rfl⟩
    · exact Memory.fill_ne fun e => hf (by simp [e])
    · exact congrFun Memory.fill_self i
  simp only [threadCloneDirectory, wp_bind, hs.wp_frameCalloc]
  refine (wp_upTo (I := fun n m' => ∃ used rest, used ++ rest = free ∧
    ThreadCloning m t d n used rest m')
    ⟨[], free, rfl, hstart⟩ ?_).mono ?_ fun _ _ => id
  · rintro n m' hn ⟨used, rest, rfl, h⟩
    exact h.step hr hn
  rintro - m₁ ⟨used, rest, rfl, h⟩
  obtain ⟨hdd₁, -⟩ := h.toMidway.ne hr
  have hpoke := fun Q E v => @Rooted.wp_poke m₁ t d 1023 v E Q h.sane.rooted hdd₁ hdt
  simp only [wp_bind] at hpoke
  simp only [recursivelyMapPageDirectory, wp_bind, hpoke, wp_pure]
  obtain ⟨hd, -⟩ := List.nodup_cons.mp hs.nodup
  have hslot : ∀ i, i < 1023 → m₁.mem.set d 1023 (4096 * d ||| 3) d i = m₁.mem d i := fun i hi =>
    Memory.set_word_ne (by omega)
  refine ⟨trivial, used, rest, rfl, ⟨h.toMidway.write hr _, h.dir, h.heapEnd, fun f hf => ?_⟩,
    ?_, fun i hi ho => ?_, fun i hi ho => ?_⟩
  · rw [Machine.withMem_mem, Memory.set_ne fun e => hf (by simp [e])]
    exact h.same f hf
  · rw [← h.frames]
    refine classFrames_congr (fun i hi _ => hslot i hi) fun f hf => Memory.set_ne ?_
    rw [h.frames] at hf
    exact fun e => hd (by simp [← e, hf])
  · rw [Machine.withMem_mem, hslot i hi]
    exact h.linked i hi ho
  · rw [Machine.withMem_mem, hslot i hi]
    exact h.cloned i hi ho

/-! ### Freeing -/

/-- One round of the loop of `thread_free_directory`. -/
theorem Released.threadSlot (hnd : (d :: (classFrames ThreadFreed m₀.mem d 1023 ++ free)).Nodup)
    (hne : ∀ f ∈ d :: classFrames ThreadFreed m₀.mem d 1023, f ≠ 0 ∧ f ≠ m₀.dir ∧ f ≠ t)
    (h : Released m₀ t (classFrames ThreadFreed m₀.mem d n) free m) (hn : n < 1023) :
    wp (threadFreeEntry (4096 * d) n)
      (fun _ m' => Released m₀ t (classFrames ThreadFreed m₀.mem d (n + 1)) free m') E m := by
  obtain ⟨hd, hnd⟩ := List.nodup_cons.mp hnd
  have hpre := @classFrames_mono d (n + 1) m₀.mem ThreadFreed _ 1023 hn
  rw [classFrames_succ] at hpre ⊢
  rw [threadFreeEntry_eq]
  by_cases ho : ThreadFreed n
  case neg =>
    rw [if_neg ho, if_neg ho, List.append_nil]
    exact h
  rw [if_pos ho] at hpre ⊢
  rw [if_pos ho]
  refine h.pde ho.cloned.notLinked (fun hm => hd ?_) (hne d (by simp)).2.2 ?_ fun f hf => ?_
  · simp [(classFrames_mono (show n ≤ 1023 by omega)).subset hm]
  · have := (hpre.sublist.append_right free).nodup hnd
    rw [← List.append_assoc]
    exact ((List.perm_append_comm).append_right free).nodup this
  · exact hne f (List.mem_cons_of_mem _ (hpre.subset (List.mem_append_right _ hf)))

/-- **`thread_free_directory`** frees the frames of the entries that it counts to a thread. -/
theorem threadFreeDirectory_spec (hs : Sane m t free)
    (hnd : (d :: (classFrames ThreadFreed m.mem d 1023 ++ free)).Nodup)
    (hne : ∀ f ∈ d :: classFrames ThreadFreed m.mem d 1023, f ≠ 0 ∧ f ≠ m.dir ∧ f ≠ t) :
    wp (threadFreeDirectory (4096 * d))
      (fun _ m' => Released m t (d :: classFrames ThreadFreed m.mem d 1023) free m') E m := by
  obtain ⟨h0, hd, ht⟩ := hne d (by simp)
  have hstart : Released m t (classFrames ThreadFreed m.mem d 0) free m :=
    ⟨⟨⟨free, .refl _, hs⟩, rfl, rfl, fun _ _ => rfl⟩, rfl⟩
  rw [threadFreeDirectory, wp_bind]
  refine (wp_upTo (I := fun n m' => Released m t (classFrames ThreadFreed m.mem d n) free m') hstart
    fun i m' hi h' => h'.threadSlot hnd hne hi).mono (fun _ m' h' => ?_) fun _ _ => id
  exact (h'.give h0 hd ht (List.nodup_cons.mp hnd).1).mono
    (fun _ _ h'' => h''.perm (List.perm_append_singleton _ _))
    fun _ _ => id

/-! ### Both -/

theorem ThreadCloneOf.space (h : ThreadCloneOf m t d used rest m')
    (ha : AddressSpace m t (d :: (used ++ rest))) :
    AddressSpace m' t rest :=
  ha.of_same h.sane h.dir h.same fun f hf => by simp [hf]

/-- The entry where the kernel heap ends has no frames exactly when it is not present. -/
theorem slotFrames_end : slotFrames mem d 896 = [] ↔ mem d 896 % 2 = 0 := by
  unfold slotFrames
  split
  · rename_i hp
    exact ⟨fun h => (List.cons_ne_nil _ _ h).elim, fun h => by omega⟩
  · rename_i hp
    refine ⟨fun _ => ?_, fun _ => rfl⟩
    by_contra hne
    exact hp ⟨by decide, by omega⟩

/-- A directory for a thread, made and freed: no frame that the current directory maps and no
frame of a linked page is freed, and the frames of the entry where the kernel heap ends are
missing. -/
theorem threadDirectory_spec (h : AddressSpace m t free) :
    wp threadCloneDirectory (fun a m₁ => ∃ rest, AddressSpace m₁ t rest ∧
        wp (threadFreeDirectory a) (fun _ m' => ∃ gone free', FreedOnce m₁ t rest gone free' m' ∧
          (∀ page x, page < 2 ^ 20 → walk m₁.mem m₁.dir page = some x → x.frame ∉ gone) ∧
          (∀ page x, page / 1024 < 1023 → ¬ThreadCloned (page / 1024) →
            walk m₁.mem (a / 4096) page =
            some x →
            x.frame ∉ gone) ∧
          ∃ lost, free.Perm (free' ++ lost) ∧ (lost = [] ↔ m.mem m.dir 896 % 2 = 0))
            (fun _ _ => False) m₁)
      (fun e _ => e = outOfFrames ∧
        free.length ≤ (classFrames ThreadCloned m.mem m.dir 1023).length)
        m := by
  cases free with
  | nil =>
    have hnil := fun Q E => h.wp_frameCalloc_nil (Q := Q) (E := E)
    rw [threadCloneDirectory, wp_bind, hnil]
    exact ⟨rfl, Nat.zero_le _⟩
  | cons d free =>
  refine (threadCloneDirectory_spec h.toSane h.source).mono ?_ fun e _ he =>
    ⟨he.1, by rw [List.length_cons]; omega⟩
  rintro a m₁ ⟨rfl, used, rest, rfl, hc⟩
  refine ⟨rest, hc.space h, ?_⟩
  have hperm : used.Perm (classFrames ThreadFreed m₁.mem d 1023 ++ slotFrames m₁.mem d 896) := by
    rw [← hc.frames]
    exact threadFrames_perm
  have hall : (d :: (used ++ rest)).Perm
      ((d :: classFrames ThreadFreed m₁.mem d 1023 ++ rest) ++ slotFrames m₁.mem d 896) := by
    rw [List.append_assoc, List.cons_append]
    refine ((hperm.append_right rest).trans ?_).cons d
    rw [List.append_assoc]
    exact List.perm_append_comm.append_left _
  have hnd : (d :: classFrames ThreadFreed m₁.mem d 1023 ++ rest).Nodup :=
    (List.nodup_append.mp (hall.nodup h.nodup)).1
  have hsub : ∀ f ∈ d :: classFrames ThreadFreed m₁.mem d 1023 ++ rest, f ∈
    d :: (used ++ rest) := fun f hf => hall.symm.subset (List.mem_append_left _ hf)
  have hne : ∀ f ∈ d :: classFrames ThreadFreed m₁.mem d 1023, f ≠ 0 ∧ f ≠ m₁.dir ∧
    f ≠ t := fun f hf => by
    have hm := hsub f (List.mem_append_left _ hf)
    refine ⟨h.chain.ne_zero hm, fun e => h.dir_notMem ?_, fun e => h.table_notMem (e ▸ hm)⟩
    rwa [← hc.dir, ← e]
  refine (threadFreeDirectory_spec hc.sane hnd hne).mono (fun _ m' hr => ?_) fun _ _ he => he
  obtain ⟨free', ho⟩ := hr.once h hc.dir hc.same hnd hsub
  have hmapped : ∀ page x, page < 2 ^ 20 → walk m.mem m.dir page = some x →
      x.frame ∉ d :: classFrames ThreadFreed m₁.mem d 1023 := fun page x hp hw hm =>
    h.frame_notMem hp hw (hsub _ (List.mem_append_left _ hm))
  refine ⟨_, free', ho, fun page x hp hw => ?_, fun page x hp hl hw => ?_, slotFrames m₁.mem d 896,
    hall.trans (ho.perm.symm.append_right _), ?_⟩
  · rw [hc.dir, h.walk_eq hc.same hp] at hw
    exact hmapped page x hp hw
  · rw [Nat.mul_div_cancel_left d (by decide)] at hw
    have hlink := hc.linked _ hp hl
    by_cases hpr : m.mem m.dir (page / 1024) % 2 = 1
    · rw [if_pos hpr] at hlink
      refine hmapped page x (by omega) ?_
      rw [← hw]
      simp only [walk, hlink, hc.same _ (h.table _ hp hpr)]
    · rw [if_neg hpr] at hlink
      rw [walk_of_absent (by rw [hlink])] at hw
      cases hw
  · rw [slotFrames_end, hc.cloned 896 (by decide) (by decide)]

/-- **The directories of threads are released completely** exactly when the current directory has
no entry where the kernel heap ends: then the free frames are those from before. A frame of a page
that was linked is never freed. -/
theorem thread_directory_released_iff (m : Machine) (t : ℕ) (free : List ℕ)
    (h : AddressSpace m t free) :
    wp threadCloneDirectory (fun a m₁ => ∃ rest, AddressSpace m₁ t rest ∧
        wp (threadFreeDirectory a) (fun _ m' => ∃ gone free', FreedOnce m₁ t rest gone free' m' ∧
          ((free'.Perm free ∧ ∀ page x, page / 1024 < 1023 → ¬ThreadCloned (page / 1024) →
            walk m₁.mem (a / 4096) page = some x → x.frame ∉ gone) ↔ m.mem m.dir 896 % 2 = 0))
              (fun _ _ => False) m₁)
      (fun e _ => e = outOfFrames ∧
        free.length ≤ (classFrames ThreadCloned m.mem m.dir 1023).length)
        m := by
  refine (threadDirectory_spec h).mono ?_ fun _ _ => id
  rintro a m₁ ⟨rest, ha, hfree⟩
  refine ⟨rest, ha, hfree.mono ?_ fun _ _ => id⟩
  rintro - m' ⟨gone, free', ho, -, hlinked, lost, hperm, hend⟩
  refine ⟨gone, free', ho, ?_⟩
  rw [← hend]
  constructor
  · rintro ⟨hsame, -⟩
    have hlen := (hsame.trans hperm).length_eq
    rw [List.length_append] at hlen
    exact List.eq_nil_of_length_eq_zero (by omega)
  · rintro rfl
    rw [List.append_nil] at hperm
    exact ⟨hperm.symm, hlinked⟩

end

/-- A thread of the small machine, which has nothing where the kernel heap ends. -/
theorem thread_directory_released_small :
    (classFrames ThreadCloned smallMem 1 1023).length < 4 ∧ ∃ a m₁ m' free',
      threadCloneDirectory smallMachine = .ok a m₁ ∧
      threadFreeDirectory a m₁ = .ok () m' ∧ Sane m' 2 free' ∧ free'.Perm [5, 6, 7, 8] := by
  have hlen : (classFrames ThreadCloned smallMem 1 1023).length < 4 := by decide +kernel
  have hspec := thread_directory_released_iff smallMachine 2 [5, 6, 7, 8] smallMachine_space
  obtain ⟨a, m₁, hclone, rest, -, hfree⟩ := (hspec.mono (fun _ _ h => h) fun _ _ he => by
    have := he.2
    change 4 ≤ (classFrames ThreadCloned smallMem 1 1023).length at this
    omega : wp threadCloneDirectory _ (fun _ _ => False) smallMachine).returns
  obtain ⟨_, m', hfree, gone, free', ho, hiff⟩ := hfree.returns
  exact ⟨hlen, a, m₁, m', free', hclone, hfree, ho.space.toSane, (hiff.mpr rfl).1⟩

/-- The small machine with the table in entry 896 instead of 1020. -/
def heapEndMem : Memory
  | 1, 1023 => 4096 + 3
  | 1, 1022 => 4096 * 2 + 3
  | 1, 896 => 4096 * 3 + 3
  | 3, 0 => 4096 * 4 + 3
  | 5, 0 => 4096 * 6
  | 6, 0 => 4096 * 7
  | 7, 0 => 4096 * 8
  | _, _ => 0

def heapEndMachine : Machine := ⟨heapEndMem, 1, 4096 * 5, 4, heapStart⟩

theorem heapEndMem_dir {i : ℕ} (h : heapEndMem 1 i % 2 = 1) : i = 1023 ∨ i = 1022 ∨ i = 896 := by
  unfold heapEndMem at h
  split at h <;> simp_all

theorem heapEndMem_table {w : ℕ} (h : heapEndMem 3 w % 2 = 1) : heapEndMem 3 w / 4096 = 4 := by
  unfold heapEndMem at h ⊢
  split at h <;> simp_all

theorem heapEndMachine_space : AddressSpace heapEndMachine 2 [5, 6, 7, 8] := by
  refine ⟨⟨⟨rfl, rfl, rfl, rfl, rfl, by decide⟩, ?_, by decide, by decide, by decide⟩,
    fun i hi hp =>
    ?_, fun page x hpage hx => ?_⟩
  · exact ⟨rfl, by decide, rfl, by decide, rfl, by decide, rfl, by decide, rfl⟩
  · obtain rfl | rfl | rfl := heapEndMem_dir hp
    · omega
    · decide
    · decide
  · unfold walk at hx
    dsimp only at hx
    split at hx
    case isFalse => simp at hx
    case isTrue hp =>
      obtain rfl := Option.some.inj hx
      obtain ⟨hp, he⟩ := hp
      change heapEndMem 1 _ % 2 = 1 at hp
      change heapEndMem (heapEndMem 1 _ / 4096) _ % 2 = 1 at he
      show heapEndMem (heapEndMem 1 _ / 4096) _ / 4096 ∉ _ ∧
        heapEndMem (heapEndMem 1 _ / 4096) _ / 4096 ≠ 2
      obtain h | h | h := heapEndMem_dir hp
      · omega
      · rw [h] at he
        exact absurd he (by simp [heapEndMem])
      · rw [h] at he ⊢
        have h4 := heapEndMem_table he
        change heapEndMem 3 _ / 4096 = 4 at h4
        show heapEndMem 3 _ / 4096 ∉ _ ∧ heapEndMem 3 _ / 4096 ≠ 2
        rw [h4]
        decide

/-- The end of the kernel heap is cloned for a thread and not freed with it. -/
theorem heap_end_leaked :
    AddressSpace heapEndMachine 2 [5, 6, 7, 8] ∧
      ∃ a m₁ m' free', threadCloneDirectory heapEndMachine =
      .ok a m₁ ∧
      threadFreeDirectory a m₁ = .ok () m' ∧ Sane m' 2 free' ∧ ¬free'.Perm [5, 6, 7, 8] := by
  have hlen : (classFrames ThreadCloned heapEndMem 1 1023).length < 4 := by decide +kernel
  obtain ⟨a, m₁, hclone, rest, -, hfree⟩ :=
    ((threadDirectory_spec heapEndMachine_space).mono (fun _ _ h => h) fun _ _ he => by
      have := he.2
      change 4 ≤ (classFrames ThreadCloned heapEndMem 1 1023).length at this
      omega : wp threadCloneDirectory _ (fun _ _ => False) heapEndMachine).returns
  obtain ⟨_, m', hfree, gone, free', ho, -, -, lost, hperm, hend⟩ := hfree.returns
  refine ⟨heapEndMachine_space, a, m₁, m', free', hclone, hfree, ho.space.toSane, fun hsame => ?_⟩
  have hnil : lost = [] := by
    have := (hsame.trans hperm).length_eq
    rw [List.length_append] at this
    exact List.eq_nil_of_length_eq_zero (by omega)
  exact absurd (hend.mp hnil) (by decide)

end Cosiris.Mem
