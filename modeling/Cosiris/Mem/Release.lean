import Cosiris.Mem.Clone

/-!
# Freeing an address space

`free_directory`, with which the directory of a process that has ended is freed. It gives
back the frames that belong to the directory, and changes no other.
-/

namespace Cosiris.Mem

open Prog

/-- The frames `gone` have been freed, in addition to `free`. -/
structure Freeing (m₀ : Machine) (t : ℕ) (gone free : List ℕ) (m : Machine) : Prop where
  sane : ∃ free', free'.Perm (gone ++ free) ∧ Sane m t free'
  dir : m.dir = m₀.dir
  heapEnd : m.heapEnd = m₀.heapEnd
  same : ∀ f, f ∉ gone → m.mem f = m₀.mem f

/-- … each of them once: `num_pages` has gone along. -/
structure Released (m₀ : Machine) (t : ℕ) (gone free : List ℕ) (m : Machine) :
    Prop extends Freeing m₀ t gone free m where
  pages : m.numPages = m₀.numPages + gone.length

section

variable {m m₀ : Machine} {t d f n v w : ℕ} {gone gone' free : List ℕ} {E : Halt → Machine → Prop}

theorem Released.perm (h : Released m₀ t gone free m) (hp : gone.Perm gone') :
    Released m₀ t gone' free m := by
  obtain ⟨free', hperm, hsane⟩ := h.sane
  exact ⟨⟨⟨free', hperm.trans (hp.append_right free), hsane⟩, h.dir, h.heapEnd,
    fun f hf => h.same f fun hm => hf (hp.subset hm)⟩, by rw [h.pages, hp.length_eq]⟩

theorem Freeing.rooted (h : Freeing m₀ t gone free m) : Rooted m t 0 := by
  obtain ⟨_, _, hsane⟩ := h.sane
  exact hsane.rooted

/-- Another frame is freed. -/
theorem Released.give (h : Released m₀ t gone free m) (h0 : f ≠ 0) (hd : f ≠ m₀.dir) (ht : f ≠ t)
    (hf : f ∉ gone ++ free) :
    wp (frameFree (4096 * f)) (fun _ m' => Released m₀ t (gone ++ [f]) free m') E m := by
  obtain ⟨free', hperm, hsane⟩ := h.sane
  have hd' : f ≠ m.dir := by rw [h.dir]; exact hd
  rw [hsane.wp_frameFree hd' ht]
  refine ⟨⟨⟨f :: free', ?_, hsane.give h0 hd' ht fun hm => hf (hperm.subset hm)⟩, h.dir,
    h.heapEnd, fun g hg => ?_⟩, ?_⟩
  · rw [List.append_assoc]
    exact (hperm.cons f).trans List.perm_middle.symm
  · simp only [List.mem_append, List.mem_singleton, not_or] at hg
    rw [← h.same g hg.1]
    exact Memory.set_ne hg.2
  · show m.numPages + 1 = _
    rw [h.pages, List.length_append, List.length_singleton, Nat.add_assoc]

/-- The pages of a table are freed. -/
theorem Released.table (h : Released m₀ t gone free m) (hvt : v / 4096 ≠ t)
    (hnd : (v / 4096 :: tableFrames m₀.mem (v / 4096) 1024 ++ (gone ++ free)).Nodup)
    (hne : ∀ f ∈ tableFrames m₀.mem (v / 4096) 1024, f ≠ 0 ∧ f ≠ m₀.dir ∧ f ≠ t) :
    wp (upTo (freePte v) 1024)
      (fun _ m' => Released m₀ t (gone ++ tableFrames m₀.mem (v / 4096) 1024) free m') E m := by
  refine wp_upTo (I := fun n m => Released m₀ t (gone ++ tableFrames m₀.mem (v / 4096) n) free m)
    (by simpa [tableFrames] using h) ?_
  intro j m hj h
  obtain ⟨hv, hnd⟩ := List.nodup_cons.mp hnd
  obtain ⟨htable, -, hdisj⟩ := List.nodup_append.mp hnd
  have hpre := @tableFrames_mono m₀.mem (v / 4096) (j + 1) 1024 hj
  have hread : m.mem (v / 4096) j = m₀.mem (v / 4096) j := by
    refine congrFun (h.same _ fun hm => hv ?_) j
    rcases List.mem_append.mp hm with hm | hm
    · simp [hm]
    · simp [(tableFrames_mono (show j ≤ 1024 by omega)).subset hm]
  have hpeek := fun Q : Unit → Machine → Prop => @Rooted.wp_peek m t (v / 4096) j E Unit Q
    (fun pte => if pte % 2 = 1 then frameFree (pte / 4096 * 4096) else pure ()) h.rooted hvt
  rw [tableFrames_succ] at hpre ⊢
  rw [freePte, Nat.mul_comm, hpeek, hread]
  by_cases hp : m₀.mem (v / 4096) j % 2 = 1
  · have hframe : pteFrame (m₀.mem (v / 4096) j) = some (m₀.mem (v / 4096) j / 4096) := if_pos hp
    rw [hframe, Option.toList_some] at hpre ⊢
    have hmem : m₀.mem (v / 4096) j / 4096 ∈ tableFrames m₀.mem (v / 4096) 1024 :=
      mem_tableFrames hj hp
    obtain ⟨h0, hd, ht⟩ := hne _ hmem
    rw [if_pos hp, Nat.mul_comm, ← List.append_assoc]
    refine h.give h0 hd ht ?_
    have hnew := (List.nodup_append.mp (hpre.sublist.nodup htable)).2.2
    simp only [List.mem_append, not_or]
    refine ⟨⟨fun hg => hdisj _ hmem _ (by simp [hg]) rfl, fun hm =>
      hnew _ hm _ (by simp) rfl⟩, fun hg => ?_⟩
    exact hdisj _ hmem _ (by simp [hg]) rfl
  · have hframe : pteFrame (m₀.mem (v / 4096) j) = none := if_neg hp
    rw [if_neg hp, hframe, Option.toList_none, List.append_nil]
    exact h

/-- The frames that `free_directory` frees are in use, and nothing of the current directory. -/
structure Doomed (m₀ : Machine) (t d : ℕ) (free : List ℕ) : Prop where
  nodup : (owned m₀.mem d ++ free).Nodup
  ne : ∀ f ∈ owned m₀.mem d, f ≠ 0 ∧ f ≠ m₀.dir ∧ f ≠ t

/-- The frames of an entry that is not shared are freed. -/
theorem Released.pde (h : Released m₀ t gone free m) (hl : ¬Linked n) (hd : d ∉ gone) (hdt : d ≠ t)
    (hnd : (slotFrames m₀.mem d n ++ (gone ++ free)).Nodup)
    (hne : ∀ f ∈ slotFrames m₀.mem d n, f ≠ 0 ∧ f ≠ m₀.dir ∧ f ≠ t) :
    wp (freePde (4096 * d) n) (fun _ m' => Released m₀ t (gone ++ slotFrames m₀.mem d n) free m') E
      m := by
  have hread : m.mem d n = m₀.mem d n := congrFun (h.same d hd) n
  have hpeek := fun Q : Unit → Machine → Prop =>
    @Rooted.wp_peek m t d n E Unit Q (fun pde => if pde % 2 = 1 then do
    upTo (freePte pde) 1024
    frameFree (pde / 4096 * 4096) else pure ()) h.rooted hdt
  rw [freePde, hpeek, hread]
  by_cases hp : m₀.mem d n % 2 = 1
  case neg =>
    have hnil : slotFrames m₀.mem d n = [] := if_neg fun hs => hp hs.2
    rw [if_neg hp, hnil, List.append_nil]
    exact h
  have hs : slotFrames m₀.mem d n =
    m₀.mem d n / 4096 :: tableFrames m₀.mem (m₀.mem d n / 4096) 1024 :=
    if_pos ⟨hl, hp⟩
  rw [hs] at hnd hne
  rw [if_pos hp, hs, wp_bind]
  obtain ⟨h0, hd', ht⟩ := hne _ List.mem_cons_self
  refine (h.table ht hnd fun f hf => hne f (List.mem_cons_of_mem _ hf)).mono
    (fun _ m' h' => ?_) fun _ _ => id
  rw [Nat.mul_comm]
  refine (h'.give h0 hd' ht ?_).mono (fun _ _ h'' => h''.perm ?_) fun _ _ => id
  · rw [List.cons_append] at hnd
    have := (List.nodup_cons.mp hnd).1
    simp only [List.mem_append, not_or] at this ⊢
    exact ⟨⟨this.2.1, this.1⟩, this.2.2⟩
  · rw [List.append_assoc]
    exact (List.perm_append_singleton _ _).append_left _

/-- One round of the loop of `free_directory`. -/
theorem Released.slot (hx : Doomed m₀ t d free) (h : Released m₀ t (slotsFrames m₀.mem d n) free m)
    (hn : n < 1023) :
    wp (if Linked n then pure () else freePde (4096 * d) n)
      (fun _ m' => Released m₀ t (slotsFrames m₀.mem d (n + 1)) free m') E m := by
  have hall : (d :: (slotsFrames m₀.mem d 1023 ++ free)).Nodup := hx.nodup
  obtain ⟨hd, hnd⟩ := List.nodup_cons.mp hall
  have hpre := @slotsFrames_mono m₀.mem d (n + 1) 1023 hn
  rw [slotsFrames_succ] at hpre ⊢
  by_cases hl : Linked n
  · have hnil : slotFrames m₀.mem d n = [] := if_neg fun hs => hs.1 hl
    rw [if_pos hl, hnil, List.append_nil]
    exact h
  rw [if_neg hl]
  refine h.pde hl (fun hm => hd ?_) (hx.ne d (by simp [owned])).2.2 ?_ fun f hf => ?_
  · simp [(slotsFrames_mono (show n ≤ 1023 by omega)).subset hm]
  · have := (hpre.sublist.append_right free).nodup hnd
    rw [← List.append_assoc]
    exact ((List.perm_append_comm).append_right free).nodup this
  · exact hx.ne f (List.mem_cons_of_mem _ (hpre.subset (List.mem_append_right _ hf)))

/-- **`free_directory`** gives back the frames that belong to a directory. -/
theorem freeDirectory_spec (hs : Sane m t free) (hx : Doomed m t d free) :
    wp (freeDirectory (4096 * d)) (fun _ m' => Released m t (owned m.mem d) free m') E m := by
  obtain ⟨h0, hd, ht⟩ := hx.ne d (by simp [owned])
  have hstart : Released m t (slotsFrames m.mem d 0) free m :=
    ⟨⟨⟨free, .refl _, hs⟩, rfl, rfl, fun _ _ => rfl⟩, rfl⟩
  have h1 : pdirPage / 1024 = 1023 := rfl
  have h2 : pdirPage % 1024 = 1023 := rfl
  have hcurr : m.dir * 4096 ≠ 4096 * d := by omega
  have hp := hs.rooted.self_present
  simp only [freeDirectory, virtToPhys, isMapped, h1, h2, wp_bind, hs.rooted.wp_pdir,
    wp_ite, if_false, hs.rooted.wp_table (show 1023 < 1024 by decide) hp, wp_pure, hs.rooted.self,
    hp, decide_true,
      Bool.not_true,
    Bool.false_eq_true, kassert, decide_eq_true hcurr, if_true]
  have hloop :=
    @wp_upTo Halt Machine E m (fun i => if Linked i then pure () else freePde (4096 * d) i)
    (fun n m' => Released m t (slotsFrames m.mem d n) free m') 1023 hstart fun i m' hi h' =>
      h'.slot hx hi
  refine hloop.mono (fun _ m' h' => ?_) fun _ _ => id
  have hall : (d :: (slotsFrames m.mem d 1023 ++ free)).Nodup := hx.nodup
  exact (h'.give h0 hd ht (List.nodup_cons.mp hall).1).mono
    (fun _ _ h'' => h''.perm (List.perm_append_singleton _ _))
    fun _ _ => id

end

end Cosiris.Mem
