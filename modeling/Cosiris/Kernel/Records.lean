import Cosiris.Kernel.Slots
import Cosiris.Lib.References

/-!
# Shared open-file records

`sys_dup` makes two slots of a task share a record, and counts the slots beyond the first in
`dup_cnt`. `fork_int` copies a record for every slot, together with its `dup_cnt`: when two slots
of the parent share a record, the child gets two records of one slot each that both count two, the
two descriptors no longer share an offset, and neither record is ever freed
(`fork_breaks_sharing`). In runs without such forks the counts are right, duplicates share their
record, and every record is freed once, with its last slot (`records_shared`). -/

namespace Cosiris.Descriptors

open Prog Function

/-- How many slots of task `k` point to record `f`. -/
def State.held (s : State) (k f : ℕ) : ℕ :=
  match s.files k with
  | some files => files.count (some f)
  | none => 0

/-- `dup_cnt` of the records. -/
def State.extra (s : State) (f : ℕ) : ℤ := (s.file f).dupCnt

/-- The records are counted, and freed, as they should be. -/
def State.Booked (s : State) : Prop := Ledger s.held s.extra s.frees s.nextFile

section

variable {s s' : State} {k k' f i : ℕ} {files : List (Option ℕ)} {file : File} {o o' : Option ℕ}

theorem State.held_of (hk : s.files k = some files) : s.held k f = files.count (some f) := by
  simp [State.held, hk]

theorem held_ne_zero (hk : s.files k = some files) : s.held k f ≠ 0 ↔ some f ∈ files := by
  rw [State.held_of hk, Ne, List.count_eq_zero, not_not]

/-- A slot of task `k` is written: only the references to one record change. -/
theorem State.held_set {f₀ n : ℕ} (hk : s.files k = some files) (hi : files[i]? = some o)
    (ho : ∀ f, o = some f → f = f₀)
    (ho' : ∀ f, o' = some f → f = f₀)
    (hn : s.held k f₀ - (if o = some f₀ then 1 else 0) + (if o' = some f₀ then 1 else 0) = n) :
    (s.withFiles k (files.set i o')).held = Ledger.put s.held k f₀ n := by
  have hlt := lt_of_getElem? hi
  have hget : files[i] = o := by
    rw [List.getElem?_eq_getElem hlt] at hi
    exact Option.some.inj hi
  funext k' f
  by_cases hkk : k' = k
  · subst hkk
    rw [State.held_of State.withFiles_self_files, List.count_set hlt, hget]
    simp only [beq_iff_eq]
    rcases Ledger.put_cases s.held k' k' f₀ f n with ⟨-, rfl, hp⟩ | ⟨hor, hp⟩
    · rw [hp, ← hn, State.held_of hk]
    · have hff := hor.resolve_left fun h => h rfl
      rw [hp, State.held_of hk, if_neg fun h => hff (ho f h), if_neg fun h => hff (ho' f h)]
      rfl
  · rw [Ledger.put_ne (.inl hkk)]
    simp only [State.held, State.withFiles_files, if_neg hkk]

theorem State.held_append {n : ℕ} (hk : s.files k = some files) :
    (s.withFiles k (files ++ List.replicate n none)).held = s.held := by
  funext k' f
  by_cases hkk : k' = k
  · subst hkk
    rw [State.held_of State.withFiles_self_files, State.held_of hk]
    simp [List.count_append, List.count_replicate]
  · simp only [State.held, State.withFiles_files, if_neg hkk]

theorem State.extra_withFile : (s.withFile f file).extra = update s.extra f file.dupCnt := by
  funext f'
  simp only [State.extra, State.withFile_file, update_apply]
  split <;> rfl

/-- **Every change keeps the books.** -/
theorem Change.booked (hc : Change k s s') (h : s.Booked) : s'.Booked := by
  cases hc with
  | note a ha => exact h
  | grow n hk hn =>
    unfold State.Booked
    rw [State.held_append hk]
    exact h
  | @install files i file hk hi hnode hdup =>
    have h0 : s.held k s.nextFile = 0 := by
      by_contra hne
      exact Nat.lt_irrefl _ (h.bound k _ hne)
    have hheld : (s.withFiles k (files.set i (some s.nextFile))).held =
      Ledger.put s.held k s.nextFile 1 :=
      State.held_set hk hi (by rintro _ ⟨⟩) (by rintro _ ⟨⟩; rfl) (by simp [h0])
    have hextra : (s.withFile s.nextFile file).extra = update s.extra s.nextFile 0 := by
      rw [State.extra_withFile, hdup]
    have hmake := Ledger.make (k := k) h
    rw [← hheld, ← hextra] at hmake
    exact hmake
  | waste file =>
    have hwaste := Ledger.waste (e := file.dupCnt) h
    rw [← State.extra_withFile] at hwaste
    exact hwaste
  | @last files i f hk hi hdup =>
    have hmem := List.mem_of_getElem? hi
    have hne : s.held k f ≠ 0 := (held_ne_zero hk).mpr hmem
    have hcount : (0 : ℤ) + 1 = s.held k f := hdup ▸ h.count k f hne
    have hheld : (s.withFiles k (files.set i none)).held = Ledger.put s.held k f 0 := by
      refine State.held_set hk hi (fun _ e => (Option.some.inj e).symm) (by rintro _ ⟨⟩) ?_
      simp only [if_true, reduceCtorEq, if_false]
      omega
    have hdrop := Ledger.drop h hne
    rw [← hheld] at hdrop
    exact hdrop
  | @leave files i f hk hi hdup =>
    have hmem := List.mem_of_getElem? hi
    have hne : s.held k f ≠ 0 := (held_ne_zero hk).mpr hmem
    have hcount := h.count k f hne
    change (s.file f).dupCnt + 1 = _ at hcount
    have hheld : (s.withFiles k (files.set i none)).held =
      Ledger.put s.held k f (s.held k f - 1) := by
      refine State.held_set hk hi (fun _ e => (Option.some.inj e).symm) (by rintro _ ⟨⟩) ?_
      simp only [if_true, reduceCtorEq, if_false, Nat.add_zero]
    have hchange :=
      Ledger.change (n := s.held k f - 1) (e := (s.file f).dupCnt - 1) h hne (by omega) (by omega)
    rw [← hheld] at hchange
    unfold State.Booked
    rw [State.extra_withFile]
    exact hchange
  | seek f offs =>
    have hextra : (s.withFile f { s.file f with offs := offs }).extra = s.extra := by
      rw [State.extra_withFile]
      exact update_eq_self f s.extra
    unfold State.Booked
    rw [hextra]
    exact h

theorem Changes.booked (hc : Changes k s s') (h : s.Booked) : s'.Booked :=
    hc.invariant (fun _ _ h hc => hc.booked h) h

/-- Sharing a record keeps the books. -/
theorem State.Booked.share (h : s.Booked) (hk : s.files k = some files) (hi : files[i]? = some none)
    (hf : some f ∈ files) :
    (s.share k files i f).Booked := by
  have hne : s.held k f ≠ 0 := (held_ne_zero hk).mpr hf
  have hcount := h.count k f hne
  change (s.file f).dupCnt + 1 = _ at hcount
  have hheld : (s.withFiles k (files.set i (some f))).held =
    Ledger.put s.held k f (s.held k f + 1) := by
    refine State.held_set hk hi (by rintro _ ⟨⟩) (fun _ e => (Option.some.inj e).symm) ?_
    simp only [if_true, reduceCtorEq, if_false, Nat.sub_zero]
  have hchange :=
    Ledger.change (n := s.held k f + 1) (e := (s.file f).dupCnt + 1) h hne (by omega) (by omega)
  rw [← hheld] at hchange
  unfold State.Booked
  rw [State.share, State.extra_withFile]
  exact hchange

/-- A task without open descriptors is gone. -/
theorem State.Booked.remove {n : ℕ} (h : s.Booked) (hk : s.files k = some (List.replicate n none)) :
    (s.remove k).Booked := by
  have hheld : (s.remove k).held = s.held := by
    funext k' f
    by_cases hkk : k' = k
    · subst hkk
      rw [State.held_of hk]
      simp [State.held, State.remove, List.count_replicate]
    · simp [State.held, State.remove, update_of_ne hkk]
  unfold State.Booked
  rw [hheld]
  exact h

/-- A value occurs once when it is found at one index only. -/
theorem count_le_one_iff {l : List (Option ℕ)} {a : Option ℕ} :
    l.count a ≤ 1 ↔ ∀ i j : ℕ, l[i]? = some a → l[j]? = some a → i = j := by
  induction l with
  | nil => simp
  | cons b l ih =>
    rw [List.count_cons]
    by_cases hb : b = a
    · subst hb
      simp only [beq_self_eq_true, if_true]
      constructor
      · intro h i j hi hj
        have hnot : b ∉ l := List.count_eq_zero.mp (by omega)
        have hzero : ∀ n : ℕ, (b :: l)[n]? = some b → n = 0 := fun n hn => by
          cases n with
          | zero => rfl
          | succ n => exact absurd (List.mem_of_getElem? (show l[n]? = some b from hn)) hnot
        rw [hzero i hi, hzero j hj]
      · intro h
        have hnot : b ∉ l := fun hm => by
          obtain ⟨n, hn⟩ := List.mem_iff_getElem?.mp hm
          exact absurd (h 0 (n + 1) rfl hn) (by omega)
        rw [List.count_eq_zero.mpr hnot]
    · rw [if_neg (by simpa using hb), Nat.add_zero, ih]
      constructor
      · intro h i j hi hj
        cases i with
        | zero => exact absurd (Option.some.inj hi) hb
        | succ i =>
          cases j with
          | zero => exact absurd (Option.some.inj hj) hb
          | succ j => exact congrArg (· + 1) (h i j hi hj)
      · intro h i j hi hj
        exact Nat.succ.inj (h (i + 1) (j + 1) hi hj)

/-- A child of a task without duplicates. -/
theorem Copies.booked {t : State} {copies : List (Option ℕ)} (hc : Copies s t files copies)
    (ht : s.Tidy) (h : s.Booked)
    (hdup : ∀ f, some f ∈ files → (s.file f).dupCnt = 0) : (t.child copies).Booked := by
  have hfresh := ht.fresh s.nextTask le_rfl
  have hfiles : ∀ k', (t.child copies).files k' = if k' = s.nextTask then some copies
    else s.files k' := fun k' => by
    show (t.withFiles t.nextTask copies).files k' = _
    rw [State.withFiles_files, hc.nextTask, hc.arrays]
  unfold State.Booked
  show Ledger _ _ t.frees t.nextFile
  rw [hc.frees]
  refine Ledger.join (k := s.nextTask) h hc.next (fun f => ?_) (fun k' hk' => ?_) (fun f hf => ?_)
    (fun g => ?_) fun g h1 h2 => ?_
  · simp [State.held, hfresh]
  · funext f
    simp only [State.held, hfiles, if_neg hk']
  · exact congrArg File.dupCnt (hc.old f hf)
  · simp only [State.held, hfiles, if_true]
    split_ifs with hg
    · have hmem := List.count_pos_iff.mpr (hc.onto g hg.1 hg.2)
      have hone := count_le_one_iff.mpr fun i j hi hj => hc.inj i j g hi hj
      omega
    · rw [List.count_eq_zero]
      intro hmem
      obtain ⟨i, hi⟩ := List.mem_iff_getElem?.mp hmem
      obtain ⟨f, -, h1, h2, -⟩ := hc.record hi
      exact hg ⟨h1, h2⟩
  · obtain ⟨i, hi⟩ := List.mem_iff_getElem?.mp (hc.onto g h1 h2)
    obtain ⟨f, hf, -, -, he⟩ := hc.record hi
    exact (congrArg File.dupCnt he).trans (hdup f (List.mem_of_getElem? hf))

/-! ### Duplicates -/

/-- The record of a slot. -/
def State.slotAt (s : State) (k i : ℕ) : Option ℕ := (s.files k).bind fun files => files[i]?.join

/-- The descriptors that come from one `sys_open` by `sys_dup`, in a task and the tasks it has
forked from, have the same name. A call names the descriptors that it makes: a duplicate, and
those of a child, like what they come from, others by their new record. -/
def Op.names (s s' : State) (name : ℕ → ℕ → ℕ) : Op → ℕ → ℕ → ℕ
  | .dup k' oldfd =>
      fun k i => if k = k' ∧ s'.slotAt k i ≠ s.slotAt k i then name k' oldfd.toNat else name k i
  | .fork k' => fun k i => if k = s.nextTask then name k' i else name k i
  | _ => fun k i => if s'.slotAt k i = s.slotAt k i then name k i else (s'.slotAt k i).getD 0

/-- The descriptors of the same name share a record. -/
structure Named (s : State) (name : ℕ → ℕ → ℕ) : Prop where
  lt : ∀ k i f, s.slotAt k i = some f → name k i < s.nextFile
  iff : ∀ k i j f g, s.slotAt k i = some f → s.slotAt k j = some g → (name k i = name k j ↔ f = g)

theorem State.slotAt_of (hk : s.files k = some files) : s.slotAt k i = files[i]?.join := by
  simp [State.slotAt, hk]

theorem slotAt_eq_some (hk : s.files k = some files) :
    s.slotAt k i = some f ↔ files[i]? = some (some f) := by
  rw [State.slotAt_of hk, Option.join_eq_some_iff]

/-- The slots after the calls but `sys_dup`: as they were, empty, or with new records. -/
structure Renewed (k : ℕ) (s s' : State) : Prop where
  next : s.nextFile ≤ s'.nextFile
  other : ∀ k' i, k' ≠ k → s'.slotAt k' i = s.slotAt k' i
  slot : ∀ i, s'.slotAt k i = s.slotAt k i ∨ s'.slotAt k i = none ∨
    ∃ g, s'.slotAt k i = some g ∧ s.nextFile ≤ g ∧ g < s'.nextFile

theorem Renewed.trans {t : State} (h : Renewed k s t) (h' : Renewed k t s') : Renewed k s s' where
  next := h.next.trans h'.next
  other k' i hk := (h'.other k' i hk).trans (h.other k' i hk)
  slot i := by
    rcases h'.slot i with h2 | h2 | ⟨g, hg, h1, h2⟩
    · rw [h2]
      exact (h.slot i).imp_right
        (.imp_right fun ⟨g, hg, h1, h3⟩ => ⟨g, hg, h1, h3.trans_le h'.next⟩)
    · exact .inr (.inl h2)
    · exact .inr (.inr ⟨g, hg, h.next.trans h1, h2⟩)

/-- The slots after one is written. -/
theorem slotAt_set {j : ℕ} (hk : s.files k = some files) (hi : files[i]? = some o) :
    (s.withFiles k (files.set i o')).slotAt k' j = if k' = k ∧ j = i then o'
      else s.slotAt k' j := by
  by_cases hkk : k' = k
  · subst hkk
    rw [State.slotAt_of State.withFiles_self_files, State.slotAt_of hk, List.getElem?_set]
    by_cases hji : j = i
    · subst hji
      rw [if_pos rfl, if_pos (lt_of_getElem? hi), if_pos ⟨rfl, rfl⟩]
      rfl
    · rw [if_neg (Ne.symm hji), if_neg fun h => hji h.2]
  · rw [if_neg fun h => hkk h.1]
    simp only [State.slotAt, State.withFiles_files, if_neg hkk]

theorem slotAt_append {n : ℕ} {j : ℕ} (hk : s.files k = some files) :
    (s.withFiles k (files ++ List.replicate n none)).slotAt k' j = s.slotAt k' j := by
  by_cases hkk : k' = k
  · subst hkk
    rw [State.slotAt_of State.withFiles_self_files, State.slotAt_of hk]
    rcases Nat.lt_or_ge j files.length with hj | hj
    · rw [List.getElem?_append_left hj]
    · rw [List.getElem?_append_right hj, List.getElem?_eq_none hj, List.getElem?_replicate]
      split <;> rfl
  · simp only [State.slotAt, State.withFiles_files, if_neg hkk]

theorem Renewed.of_eq (hnext : s.nextFile ≤ s'.nextFile) (h : ∀ k i, s'.slotAt k i = s.slotAt k i) :
    Renewed k s s' :=
  ⟨hnext, fun k' i _ => h k' i, fun i => .inl (h k i)⟩

/-- A slot is written with nothing, or with a new record. -/
theorem Renewed.set (hk : s.files k = some files) (hi : files[i]? = some o)
    (hnext : s.nextFile ≤ s'.nextFile)
    (hs' : s'.files = (s.withFiles k (files.set i o')).files)
    (ho : ∀ g, o' = some g → s.nextFile ≤ g ∧ g < s'.nextFile) :
    Renewed k s s' := by
  have hslot : ∀ k' j, s'.slotAt k' j = if k' = k ∧ j =
      i then o' else s.slotAt k' j := fun k' j => by
    rw [← slotAt_set hk hi]
    simp only [State.slotAt, hs']
  refine ⟨hnext, fun k' j hkk => by rw [hslot, if_neg fun h => hkk h.1], fun j => ?_⟩
  rw [hslot]
  split
  · cases o' with
    | none => exact .inr (.inl rfl)
    | some g => exact .inr (.inr ⟨g, rfl, ho g rfl⟩)
  · exact .inl rfl

theorem Change.renewed (hc : Change k s s') : Renewed k s s' := by
  cases hc with
  | note a ha => exact .of_eq le_rfl fun _ _ => rfl
  | grow n hk hn => exact .of_eq le_rfl fun k' i => slotAt_append hk
  | @install files i file hk hi hnode hdup =>
    refine .set hk hi (Nat.le_succ _) rfl fun g hg => ?_
    obtain rfl := Option.some.inj hg
    exact ⟨le_rfl, Nat.lt_succ_self _⟩
  | waste file => exact .of_eq (Nat.le_succ _) fun _ _ => rfl
  | last hk hi hdup => exact .set hk hi le_rfl rfl (by rintro _ ⟨⟩)
  | leave hk hi hdup => exact .set hk hi le_rfl rfl (by rintro _ ⟨⟩)
  | seek f offs => exact .of_eq le_rfl fun _ _ => rfl

theorem Changes.renewed (hc : Changes k s s') : Renewed k s s' := by
  induction hc with
  | refl => exact .of_eq le_rfl fun _ _ => rfl
  | tail _ hstep ih => exact ih.trans hstep.renewed

theorem Renewed.remove (h : Renewed k s s') : Renewed k s (s'.remove k) where
  next := h.next
  other k' i hkk := by
    rw [← h.other k' i hkk]
    simp [State.slotAt, State.remove, update_of_ne hkk]
  slot i := .inr (.inl (by simp [State.slotAt, State.remove]))

variable {name : ℕ → ℕ → ℕ}

/-- New descriptors are named by their records. -/
theorem Named.renew (h : Named s name) (hold : ∀ k i f, s.slotAt k i = some f → f < s.nextFile)
    (hr : Renewed k s s') :
    Named s' fun k i => if s'.slotAt k i = s.slotAt k i then name k i
      else (s'.slotAt k i).getD 0 := by
  have hcase : ∀ k' i f, s'.slotAt k' i = some f →
    s'.slotAt k' i = s.slotAt k' i ∧ s.slotAt k' i = some f ∨
      s'.slotAt k' i ≠ s.slotAt k' i ∧ s.nextFile ≤ f ∧ f < s'.nextFile := fun k' i f hf => by
    by_cases he : s'.slotAt k' i = s.slotAt k' i
    · exact .inl ⟨he, he ▸ hf⟩
    · by_cases hkk : k' = k
      · subst hkk
        rcases hr.slot i with h' | h' | ⟨g, hg, h1, h2⟩
        · exact absurd h' he
        · rw [hf] at h'
          cases h'
        · rw [hf] at hg
          obtain rfl := Option.some.inj hg
          exact .inr ⟨he, h1, h2⟩
      · exact absurd (hr.other k' i hkk) he
  refine ⟨fun k' i f hf => ?_, fun k' i j f g hf hg => ?_⟩
  · rcases hcase k' i f hf with ⟨he, hs⟩ | ⟨he, -, hlt⟩
    · rw [if_pos he]
      exact (h.lt k' i f hs).trans_le hr.next
    · rwa [if_neg he, hf]
  · rcases hcase k' i f hf with ⟨he, hs⟩ | ⟨he, hle, -⟩ <;> rcases hcase k' j g hg with ⟨he',
      hs'⟩ | ⟨he', hle', -⟩
    · rw [if_pos he, if_pos he']
      exact h.iff k' i j f g hs hs'
    · have h1 := h.lt k' i f hs
      have h2 := hold k' i f hs
      rw [if_pos he, if_neg he', hg, Option.getD_some]
      constructor <;> intro <;> omega
    · have h1 := h.lt k' j g hs'
      have h2 := hold k' j g hs'
      rw [if_neg he, if_pos he', hf, Option.getD_some]
      constructor <;> intro <;> omega
    · rw [if_neg he, if_neg he', hf, hg]
      rfl

/-- A duplicate is named like the descriptor it comes from. -/
theorem Named.share {j : ℕ} {t : State} (h : Named s name)
    (hslots : ∀ k i, t.slotAt k i = s.slotAt k i) (hnext : t.nextFile = s.nextFile)
    (hk : t.files k = some files) (hi : files[i]? = some none) (hj : s.slotAt k j = some f) :
    Named (t.share k files i f) fun k' i' => if k' = k ∧
      (t.share k files i f).slotAt k' i' ≠ s.slotAt k' i' then name k j
      else name k' i' := by
  have hslot : ∀ k' i', (t.share k files i f).slotAt k' i' = if k' = k ∧
    i' = i then some f else s.slotAt k' i' := fun k' i' => by
    show (t.withFiles k (files.set i (some f))).slotAt k' i' = _
    rw [slotAt_set hk hi, hslots]
  have hnone : s.slotAt k i = none := by
    rw [← hslots, State.slotAt_of hk, hi]
    rfl
  have hname : ∀ k' i', (k' = k ∧ (t.share k files i f).slotAt k' i' ≠ s.slotAt k' i') ↔ k' = k ∧
    i' = i := fun k' i' => by
    rw [hslot]
    constructor
    · rintro ⟨hkk, hne⟩
      by_contra hnot
      exact hne (if_neg hnot)
    · rintro ⟨rfl, rfl⟩
      rw [if_pos ⟨rfl, rfl⟩, hnone]
      exact ⟨rfl, by simp⟩
  simp only [hname]
  refine ⟨fun k' i' g hg => ?_, fun k' i₁ i₂ f₁ f₂ h₁ h₂ => ?_⟩
  · show _ < t.nextFile
    rw [hnext]
    rw [hslot] at hg
    split_ifs at hg ⊢ with hcase
    · exact h.lt k j f hj
    · exact h.lt k' i' g hg
  · rw [hslot] at h₁ h₂
    split_ifs at h₁ h₂ ⊢ with hc₁ hc₂ hc₂
    · simp only [Option.some.injEq] at h₁ h₂
      simp [← h₁, ← h₂]
    · obtain ⟨rfl, -⟩ := hc₁
      obtain rfl := Option.some.inj h₁
      exact h.iff k' j i₂ f f₂ hj h₂
    · obtain ⟨rfl, -⟩ := hc₂
      obtain rfl := Option.some.inj h₂
      exact h.iff k' i₁ j f₁ f h₁ hj
    · exact h.iff k' i₁ i₂ f₁ f₂ h₁ h₂

/-- The descriptors of a child are named like those of its parent, which has no duplicates. -/
theorem Named.fork {t : State} {copies : List (Option ℕ)} (h : Named s name) (hb : s.Booked)
    (hk : s.files k = some files)
    (hc : Copies s t files copies) (hdup : ∀ f, some f ∈ files → (s.file f).dupCnt = 0) :
    Named (t.child copies) fun k' i => if k' = s.nextTask then name k i else name k' i := by
  have hfiles : ∀ k', (t.child copies).files k' = if k' = s.nextTask then some copies
    else s.files k' := fun k' => by
    show (t.withFiles t.nextTask copies).files k' = _
    rw [State.withFiles_files, hc.nextTask, hc.arrays]
  have hchild : (t.child copies).files s.nextTask = some copies := by rw [hfiles, if_pos rfl]
  have hother : ∀ k' i, k' ≠ s.nextTask →
    (t.child copies).slotAt k' i = s.slotAt k' i := fun k' i hkk => by
    simp only [State.slotAt, hfiles, if_neg hkk]
  have hparent : ∀ i g, (t.child copies).slotAt s.nextTask i = some g →
    ∃ f, files[i]? = some (some f) := fun i g hg => by
    obtain ⟨f, hf, -⟩ := hc.record ((slotAt_eq_some hchild).mp hg)
    exact ⟨f, hf⟩
  refine ⟨fun k' i g hg => ?_, fun k' i j g g' hg hg' => ?_⟩
  · show _ < t.nextFile
    by_cases hkk : k' = s.nextTask
    · subst hkk
      obtain ⟨f, hf⟩ := hparent i g hg
      rw [if_pos rfl]
      exact (h.lt k i f ((slotAt_eq_some hk).mpr hf)).trans_le hc.next
    · rw [if_neg hkk]
      rw [hother k' i hkk] at hg
      exact (h.lt k' i g hg).trans_le hc.next
  · by_cases hkk : k' = s.nextTask
    · subst hkk
      obtain ⟨f, hf⟩ := hparent i g hg
      obtain ⟨f', hf'⟩ := hparent j g' hg'
      rw [if_pos rfl, if_pos rfl,
        h.iff k i j f f' ((slotAt_eq_some hk).mpr hf) ((slotAt_eq_some hk).mpr hf')]
      have hmem := List.mem_of_getElem? hf
      have hone : files.count (some f) ≤ 1 := by
        have hcount := hb.count k f ((held_ne_zero hk).mpr hmem)
        change (s.file f).dupCnt + 1 = _ at hcount
        rw [hdup f hmem, State.held_of hk] at hcount
        omega
      constructor
      · rintro rfl
        obtain rfl := count_le_one_iff.mp hone i j hf hf'
        rw [hg] at hg'
        exact Option.some.inj hg'
      · rintro rfl
        obtain rfl := hc.inj i j g ((slotAt_eq_some hchild).mp hg) ((slotAt_eq_some hchild).mp hg')
        rw [hf] at hf'
        exact Option.some.inj (Option.some.inj hf')
    · rw [if_neg hkk, if_neg hkk]
      rw [hother _ _ hkk] at hg hg'
      exact h.iff k' i j g g' hg hg'

/-! ### Runs -/

/-- The call stays in bounds, and no task with duplicates forks. -/
def Op.Careful (s : State) (op : Op) : Prop :=
  op.InBounds s ∧ match op with
    | .fork k => ∀ files f, s.files k = some files → some f ∈ files → (s.file f).dupCnt = 0
    | _ => True

/-- A step, with the names of the descriptors. -/
def NamedStep (C : State → Op → Prop) (p p' : State × (ℕ → ℕ → ℕ)) : Prop :=
  ∃ op t node, op.Allowed p.1 ∧ C p.1 op ∧ op.exec p.1 = .ok () t ∧
    p' = ({ t with node := node }, op.names p.1 t p.2)

/-- **The records are shared as they should be**: in every task `dup_cnt + 1` is the number of
slots that point to a record, duplicates share a record, and a record has been freed, once,
exactly when no slot points to it. -/
structure State.Shared (s : State) (name : ℕ → ℕ → ℕ) : Prop where
  count : ∀ k files f, s.files k = some files → some f ∈ files →
      (s.file f).dupCnt + 1 = files.count (some f)
  shared : ∀ k i j f g, s.slotAt k i = some f → s.slotAt k j = some g → name k i = name k j → f = g
  live : ∀ k files f, s.files k = some files → some f ∈ files → s.frees f = 0
  freed : ∀ f, f < s.nextFile → (∀ k files, s.files k = some files → some f ∉ files) → s.frees f = 1

/-- The state is as it should be. -/
structure Sound (s : State) (name : ℕ → ℕ → ℕ) : Prop where
  tidy : s.Tidy
  booked : s.Booked
  named : Named s name

theorem Sound.shared (h : Sound s name) : s.Shared name where
  count k files f hk hf := by
    have := h.booked.count k f ((held_ne_zero hk).mpr hf)
    rwa [State.held_of hk] at this
  shared k i j f g hf hg := (h.named.iff k i j f g hf hg).mp
  live k files f hk hf := h.booked.live k f ((held_ne_zero hk).mpr hf)
  freed f hf hnone := h.booked.freed f hf fun k => by
    by_contra hne
    cases hk : s.files k with
    | none => exact hne (by simp [State.held, hk])
    | some files => exact hnone k files hk ((held_ne_zero hk).mp hne)

theorem State.Tidy.slot_lt (h : s.Tidy) (hf : s.slotAt k i = some f) : f < s.nextFile := by
  cases hk : s.files k with
  | none => simp [State.slotAt, hk] at hf
  | some files =>
      exact (h.array k files hk).old f (List.mem_of_getElem? ((slotAt_eq_some hk).mp hf))

/-- A careful call keeps the state sound. -/
theorem Op.Effect.sound {op : Op} (he : op.Effect s s') (hc : op.Careful s) (h : Sound s name) :
    Sound s' (op.names s s' name) := by
  have hchanges : ∀ {k : ℕ}, Changes k s s' → Sound s' fun k i =>
      if s'.slotAt k i = s.slotAt k i then name k i else (s'.slotAt k i).getD 0 := fun hch =>
    ⟨hch.tidy h.tidy, hch.booked h.booked, h.named.renew (fun _ _ _ => h.tidy.slot_lt) hch.renewed⟩
  have htidy := he.tidy h.tidy
  cases op with
  | dup k oldfd =>
    rcases he with rfl | ⟨s₁, files, n, i, j, f, hk, hch, hfiles, hnext, hi, rfl, hj, rfl⟩
    · refine ⟨h.tidy, h.booked, ?_⟩
      simpa [Op.names] using h.named
    · have hk₁ : s₁.files k = some (files ++ List.replicate n none) := by
        rw [hfiles, State.withFiles_self_files]
      have hmem : some f ∈ files ++ List.replicate n none :=
        List.mem_append_left _ (List.mem_of_getElem? hj)
      have hslots : ∀ k' i', s₁.slotAt k' i' = s.slotAt k' i' := fun k' i' => by
        rw [← slotAt_append (n := n) hk]
        simp only [State.slotAt, hfiles]
      refine ⟨htidy, (hch.booked h.booked).share hk₁ hi hmem, ?_⟩
      exact h.named.share hslots hnext hk₁ hi ((slotAt_eq_some hk).mpr hj)
  | fork k =>
    obtain ⟨t, files, copies, hk, hcopy, rfl⟩ := he
    have hdup : ∀ f, some f ∈ files → (s.file f).dupCnt = 0 := fun f => hc.2 files f hk
    exact ⟨htidy, hcopy.booked h.tidy h.booked hdup, h.named.fork h.booked hk hcopy hdup⟩
  | free k =>
    obtain ⟨t, n, hch, ht, rfl⟩ := he
    exact ⟨htidy, (hch.booked h.booked).remove ht,
      h.named.renew (fun _ _ _ => h.tidy.slot_lt) hch.renewed.remove⟩
  | openFile | opendir | pipe | close | readFile | fstat => exact hchanges he

theorem Sound.world (h : Sound s name) (node : ℕ → FsNode) : Sound { s with node := node } name :=
  ⟨h.tidy.world node, h.booked, h.named.lt, h.named.iff⟩

theorem NamedStep.sound {p p' : State × (ℕ → ℕ → ℕ)} (hs : NamedStep Op.Careful p p')
    (h : Sound p.1 p.2) : Sound p'.1 p'.2 := by
  obtain ⟨op, t, node, ha, hc, hexec, rfl⟩ := hs
  have he : op.Effect p.1 t := (Op.exec_spec (E := fun _ _ => True) h.tidy ha hc.1).ok hexec
  exact (he.sound hc h).world node

/-- **Records are shared as they should be**, in every run in which no task with duplicates forks
and the calls stay in bounds. -/
theorem records_shared {p p' : State × (ℕ → ℕ → ℕ)} (h : Sound p.1 p.2)
    (hr : Reach (NamedStep Op.Careful) p p') :
    p'.1.Shared p'.2 :=
  (hr.invariant (I := fun p : State × (ℕ → ℕ → ℕ) => Sound p.1 p.2)
    (fun _ _ h hs => hs.sound h) h).shared

end

theorem boot_held (k f : ℕ) : boot.held k f = if k = 0 ∧ f < 3 then 1 else 0 := by
  by_cases hk : k = 0
  · subst hk
    have : boot.held 0 f = [some 0, some 1, some 2, none, none, none].count (some f) := rfl
    rw [this]
    rcases f with _ | _ | _ | n
    · rfl
    · rfl
    · rfl
    · simp
  · simp [State.held, boot, hk]

theorem boot_held_ne_zero {k f : ℕ} : boot.held k f ≠ 0 ↔ k = 0 ∧ f < 3 := by simp [boot_held]

theorem boot_slotAt {k i f : ℕ} (h : boot.slotAt k i = some f) : f = i ∧ i < 3 := by
  have hk : k = 0 := by
    by_contra hne
    simp [State.slotAt, boot, hne] at h
  subst hk
  rcases i with _ | _ | _ | _ | _ | _ | n
  · simpa [State.slotAt, boot, eq_comm] using h
  · simpa [State.slotAt, boot, eq_comm] using h
  · simpa [State.slotAt, boot, eq_comm] using h
  all_goals simp [State.slotAt, boot] at h

/-- The first descriptors have the names of their records. -/
theorem boot_sound : Sound boot fun _ i => i where
  tidy := boot_tidy
  booked :=
    { count := fun k f hf => by rw [boot_held, if_pos (boot_held_ne_zero.mp hf)]; rfl
      apart := fun k k' f hf hf' =>
        (boot_held_ne_zero.mp hf).1.trans (boot_held_ne_zero.mp hf').1.symm
      live := fun k f _ => rfl
      freed := fun f hf hnone => absurd (hnone 0) (boot_held_ne_zero.mpr ⟨rfl, hf⟩)
      bound := fun k f hf => (boot_held_ne_zero.mp hf).2
      beyond := fun f _ => rfl }
  named :=
    { lt := fun k i f hf => (boot_slotAt hf).2
      iff := fun k i j f g hf hg => by rw [(boot_slotAt hf).1, (boot_slotAt hg).1] }

/-- A process duplicates a descriptor, and closes the duplicate. -/
theorem records_shared_dup : ∃ p, Reach (NamedStep Op.Careful) (boot, fun _ i => i) p ∧
    p.1.slotAt 0 3 = some 0 ∧ p.1.Shared p.2 := by
  have hok : ((Op.dup 0 0).exec boot).returned = true := by decide +kernel
  have hslot : ((Op.dup 0 0).exec boot).state.slotAt 0 3 = some 0 := by decide +kernel
  have hexec := Op.exec_of_returned hok
  generalize ((Op.dup 0 0).exec boot).state = s₁ at *
  have hstep : NamedStep Op.Careful (boot, fun _ i => i)
    (s₁, (Op.dup 0 0).names boot s₁ fun _ i => i) := by
    refine ⟨.dup 0 0, s₁, s₁.node, ⟨by decide, trivial⟩,
      ⟨fun files hk _ => ?_, trivial⟩, hexec, rfl⟩
    obtain ⟨-, rfl⟩ := boot_files hk
    show 3 + 1 ≤ 64
    omega
  exact ⟨_, .single hstep, hslot, records_shared boot_sound (.single hstep)⟩

/-- **Sharing breaks in a fork**: the child of a task with a duplicate has two records, each of
one slot, that count two. -/
theorem fork_breaks_sharing : ∃ p, Sound boot (fun _ i => i) ∧
    Reach (NamedStep fun s op => op.InBounds s) (boot, fun _ i => i) p ∧ ¬p.1.Shared p.2 := by
  have hok₁ : ((Op.dup 0 0).exec boot).returned = true := by decide +kernel
  have hok₂ : ((Op.fork 0).exec ((Op.dup 0 0).exec boot).state).returned = true := by decide +kernel
  have hlive : ((Op.dup 0 0).exec boot).state.files 0 =
    some [some 0, some 1, some 2, some 0, none, none] := by
    decide +kernel
  have hfiles : ((Op.fork 0).exec ((Op.dup 0 0).exec boot).state).state.files 1 =
    some [some 3, some 4, some 5, some 6, none, none] := by
    decide +kernel
  have hdup : (((Op.fork 0).exec ((Op.dup 0 0).exec boot).state).state.file 3).dupCnt = 1 := by
    decide +kernel
  have hexec₁ := Op.exec_of_returned hok₁
  have hexec₂ := Op.exec_of_returned hok₂
  generalize ((Op.dup 0 0).exec boot).state = s₁ at *
  generalize ((Op.fork 0).exec s₁).state = s₂ at *
  have hstep₁ : NamedStep (fun s op => op.InBounds s) (boot, fun _ i => i)
    (s₁, (Op.dup 0 0).names boot s₁ fun _ i => i) := by
    refine ⟨.dup 0 0, s₁, s₁.node, ⟨by decide, trivial⟩, fun files hk _ => ?_, hexec₁, rfl⟩
    obtain ⟨-, rfl⟩ := boot_files hk
    show 3 + 1 ≤ 64
    omega
  have hstep₂ : NamedStep (fun s op => op.InBounds s) (s₁, (Op.dup 0 0).names boot s₁ fun _ i => i)
      (s₂, (Op.fork 0).names s₁ s₂ ((Op.dup 0 0).names boot s₁ fun _ i => i)) :=
    ⟨.fork 0, s₂, s₂.node, ⟨by simp [Op.task, hlive], trivial⟩, trivial, hexec₂, rfl⟩
  refine ⟨_, boot_sound, (Relation.ReflTransGen.single hstep₁).tail hstep₂, fun h => ?_⟩
  have hcount := h.count 1 _ 3 hfiles (by simp)
  rw [hdup] at hcount
  exact absurd hcount (by decide)

end Cosiris.Descriptors
