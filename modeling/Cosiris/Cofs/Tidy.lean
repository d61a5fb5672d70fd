import Cosiris.Cofs.Effects
import Cosiris.Lib.SlotMap

/-!
# Directories in order

The entries of a directory as the slots of a map from names to inode numbers: what keeps the
directory in order, and what an entry that is set does to the map.
-/

namespace Cosiris.Cofs

open Function Prog

variable [Stack]

/-- A name with room for the zero byte after it: 1 to 27 characters. -/
def CStr.Short (name : CStr) : Prop := 0 < name.bytes.length ∧ name.bytes.length < 28

instance (name : CStr) : Decidable name.Short := inferInstanceAs (Decidable (_ ∧ _))

/-- The slot of an entry. -/
def Dirent.slot (e : Dirent) : Option (CStr × ℕ) :=
  if e.inode = 0 then none else some (e.name, e.inode)

omit [Stack] in
theorem CStr.Short.ne_empty {name : CStr} (h : name.Short) : name ≠ CStr.empty := by
  rintro rfl
  exact absurd h.1 (by decide)

theorem CStr.Short.stored {name : CStr} (h : name.Short) : name.stored = name :=
  CStr.stored_of_lt h.2

omit [Stack] in
theorem Dirent.slot_eq_some {e : Dirent} {name : CStr} {i : ℕ} :
    e.slot = some (name, i) ↔ e = ⟨i, name⟩ ∧ i ≠ 0 := by
  obtain ⟨j, nm⟩ := e
  unfold Dirent.slot
  dsimp only
  split_ifs with h0
  · subst h0
    simp only [false_iff, not_and, Dirent.mk.injEq]
    rintro ⟨rfl, -⟩ h
    exact h rfl
  · simp only [Option.some_inj, Prod.mk.injEq, Dirent.mk.injEq]
    constructor
    · rintro ⟨rfl, rfl⟩
      exact ⟨⟨rfl, rfl⟩, h0⟩
    · rintro ⟨⟨rfl, rfl⟩, -⟩
      exact ⟨rfl, rfl⟩

omit [Stack] in
theorem map_putSlot (l : List Dirent) (k : ℕ) (e : Dirent) :
    (putSlot l k e).map Dirent.slot = SlotMap.put (l.map Dirent.slot) k e.slot := by
  unfold putSlot SlotMap.put
  rw [List.map_append, List.map_cons, List.map_take, List.map_drop]

namespace Files

/-- The map of directory `p`. -/
def names (F : Files) (p : ℕ) : CStr → Option ℕ := SlotMap.get ((F.entries p).map Dirent.slot)

/-- The type and the mode of a file. -/
def type (F : Files) (i : ℕ) : ℕ := (F i).elim 0 File.type

/-- **A directory in order**: no two of its entries have one name, the names are short, a free
entry has none, and an entry names a file of some type. The directory and the root are linked, and
any other file has as many links as the directory has entries for it, at least. -/
structure Tidy (p : ℕ) (F : Files) : Prop where
  dir : F.type p &&& 0x4000 ≠ 0
  free : ∀ e ∈ F.entries p, e.inode = 0 → e.name = CStr.empty
  short : ∀ e ∈ F.entries p, e.inode ≠ 0 → e.name.Short
  distinct : SlotMap.Distinct ((F.entries p).map Dirent.slot)
  typed : ∀ e ∈ F.entries p, e.inode ≠ 0 → F.type e.inode &&& 0xF000 ≠ 0
  counted : ∀ j, j ≠ 0 → j ≠ p → j ≠ 1 →
    (F.entries p).countP (fun e => e.inode = j) ≤ F.links j
  linked : F.links p ≠ 0
  root : F.links 1 ≠ 0

variable {F F' F₁ : Files} {p i j k n : ℕ} {name : CStr} {e : Dirent}

/-! ### The map and the lookup -/

theorem Tidy.mem_iff (h : F.Tidy p) :
    F.names p name = some i ↔ ⟨i, name⟩ ∈ F.entries p ∧ i ≠ 0 := by
  unfold names
  rw [h.distinct.get_eq_some_iff, List.mem_map]
  simp only [Dirent.slot_eq_some]
  constructor
  · rintro ⟨e, he, rfl, h0⟩
    exact ⟨he, h0⟩
  · rintro ⟨he, h0⟩
    exact ⟨_, he, rfl, h0⟩

/-- The names in the map are short. -/
theorem Tidy.short_of_names (h : F.Tidy p) (hm : F.names p name = some i) : name.Short := by
  obtain ⟨he, h0⟩ := h.mem_iff.mp hm
  exact h.short _ he h0

/-- **The lookup is in the map.** -/
theorem Tidy.lookup_eq (h : F.Tidy p) (hn : name.Short) :
    lookup (F.entries p) name = (F.names p name).getD 0 := by
  cases hm : F.names p name with
  | none =>
    by_contra h0
    exact absurd (hm.symm.trans (h.mem_iff.mpr ⟨mem_of_lookup rfl h0, h0⟩)) (by simp)
  | some i =>
    obtain ⟨he, -⟩ := h.mem_iff.mp hm
    have hsome : lookup (F.entries p) name ≠ 0 := by
      unfold lookup
      cases hf : (F.entries p).find? fun e => e.name = name with
      | none => exact absurd (decide_eq_true rfl) (List.find?_eq_none.mp hf _ he)
      | some e =>
        have hname : e.name = name := by simpa using List.find?_some hf
        intro h0
        exact hn.ne_empty (hname.symm.trans (h.free e (List.mem_of_find?_eq_some hf) h0))
    have := h.mem_iff.mpr ⟨mem_of_lookup rfl hsome, hsome⟩
    rw [hm] at this
    exact (Option.some.inj this).symm

theorem Tidy.lookup_eq_zero_iff (h : F.Tidy p) (hn : name.Short) :
    lookup (F.entries p) name = 0 ↔ F.names p name = none := by
  rw [h.lookup_eq hn]
  cases hm : F.names p name with
  | none => simp
  | some i => simpa using (h.mem_iff.mp hm).2

/-- A file that the directory names is linked. -/
theorem Tidy.links_ne_zero (h : F.Tidy p) (he : ⟨i, name⟩ ∈ F.entries p) (h0 : i ≠ 0) :
    F.links i ≠ 0 := by
  by_cases hp : i = p
  · exact hp ▸ h.linked
  · by_cases h1 : i = 1
    · exact h1 ▸ h.root
    · have hpos : 0 < (F.entries p).countP (fun e => e.inode = i) :=
        List.countP_pos_iff.mpr ⟨_, he, decide_eq_true rfl⟩
      have := h.counted i h0 hp h1
      omega

/-- A file without links is not named. -/
theorem Tidy.ne_of_links (h : F.Tidy p) (hl : F.links i = 0) (he : e ∈ F.entries p)
    (h0 : e.inode ≠ 0) : e.inode ≠ i := by
  rintro rfl
  exact h.links_ne_zero he h0 hl

/-! ### Types -/

omit [Stack] in
theorem type_of_some {f : File} (h : F i = some f) : F.type i = f.type := by
  unfold type
  rw [h]
  rfl

omit [Stack] in
theorem type_of_none (h : F i = none) : F.type i = 0 := by
  unfold type
  rw [h]
  rfl

omit [Stack] in
theorem type_congr (h : F' j = F j) : F'.type j = F.type j := by
  unfold type
  rw [h]

theorem Sets.type (h : F.Sets F' p k e) : F'.type = F.type := by
  obtain ⟨f, data, hf, -, -, rfl⟩ := h
  funext j
  by_cases hj : j = p
  · subst hj
    rw [type_of_some (f := { f with data := data }) (update_self ..), type_of_some hf]
  · exact type_congr (update_of_ne hj ..)

omit [Stack] in
theorem Links.type (h : F.Links F' i n) : F'.type = F.type := by
  obtain ⟨f, hf, rfl⟩ := h
  funext j
  by_cases hj : j = i
  · subst hj
    rw [type_of_some (f := { f with numLinks := n }) (update_self ..), type_of_some hf]
  · exact type_congr (update_of_ne hj ..)

/-! ### The changes -/

theorem names_congr (h : F'.entries p = F.entries p) : F'.names p = F.names p := by
  unfold names
  rw [h]

/-- A file gets more links. -/
theorem Tidy.links (h : F.Tidy p) (hl : F.Links F' i n) (hn : F.links i ≤ n) : F'.Tidy p := by
  have hle : ∀ j, F.links j ≤ F'.links j := by
    intro j
    by_cases hj : j = i
    · rw [hj, hl.links_self]
      exact hn
    · exact (congr (hl.of_ne hj)).2.ge
  have hent := congrFun hl.entries p
  refine ⟨?_, ?_, ?_, ?_, ?_, ?_, ?_, ?_⟩
  · rw [hl.type]
    exact h.dir
  · rw [hent]
    exact h.free
  · rw [hent]
    exact h.short
  · rw [hent]
    exact h.distinct
  · rw [hent, hl.type]
    exact h.typed
  · intro j h0 hp h1
    rw [hent]
    exact (h.counted j h0 hp h1).trans (hle j)
  · have := h.linked
    have := hle p
    omega
  · have := h.root
    have := hle 1
    omega

/-- A file that is neither the directory, nor the root, nor named becomes another. -/
theorem Tidy.of_ne (h : F.Tidy p) (hp : i ≠ p) (h1 : i ≠ 1) (hF : ∀ j, j ≠ i → F' j = F j)
    (hi : ∀ e ∈ F.entries p, e.inode ≠ 0 → e.inode ≠ i) : F'.Tidy p := by
  obtain ⟨hent, hlink⟩ := congr (hF p hp.symm)
  refine ⟨?_, ?_, ?_, ?_, fun e he h0 => ?_, fun j h0 hjp hj1 => ?_, ?_, ?_⟩
  · rw [type_congr (hF p hp.symm)]
    exact h.dir
  · rw [hent]
    exact h.free
  · rw [hent]
    exact h.short
  · rw [hent]
    exact h.distinct
  · rw [hent] at he
    rw [type_congr (hF _ (hi e he h0))]
    exact h.typed e he h0
  · rw [hent]
    by_cases hj : j = i
    · refine (Nat.le_of_eq (List.countP_eq_zero.mpr fun e he hej => ?_)).trans (Nat.zero_le _)
      have hej : e.inode = j := of_decide_eq_true hej
      exact hi e he (hej ▸ h0) (hej.trans hj)
    · rw [(congr (hF j hj)).2]
      exact h.counted j h0 hjp hj1
  · rw [hlink]
    exact h.linked
  · rw [(congr (hF 1 h1.symm)).2]
    exact h.root

/-- A file without links is dropped. -/
theorem Tidy.dropsIf {P : Prop} {o : Option File} (h : F.Tidy p) (hd : F.DropsIf P F' i o)
    (hl : P → F.links i = 0) : F'.Tidy p ∧ F'.names p = F.names p := by
  by_cases hP : P
  · have hdrop := hd.1 hP
    have h0 := hl hP
    have hp : i ≠ p := fun e => h.linked (e ▸ h0)
    have h1 : i ≠ 1 := fun e => h.root (e ▸ h0)
    exact ⟨h.of_ne hp h1 (fun j hj => hdrop.of_ne hj) fun e he he0 => h.ne_of_links h0 he he0,
      names_congr (congr (hdrop.of_ne hp.symm)).1⟩
  · rw [hd.2 hP]
    exact ⟨h, rfl⟩

/-- A file is made. -/
theorem Tidy.makes {f : File} (h : F.Tidy p) (hi : i ≠ 0) (hm : F.Makes F' i f) :
    F'.Tidy p ∧ F'.entries p = F.entries p ∧
      (F'.entries p).countP (fun e => e.inode = i) = 0 := by
  have h0 := links_of_none hm.1
  have hp : i ≠ p := fun e => h.linked (e ▸ h0)
  have h1 : i ≠ 1 := fun e => h.root (e ▸ h0)
  have hent := (congr (hm.of_ne hp.symm)).1
  refine ⟨h.of_ne hp h1 (fun j hj => hm.of_ne hj) fun e he he0 => h.ne_of_links h0 he he0, hent,
    List.countP_eq_zero.mpr fun e he hei => ?_⟩
  have hei : e.inode = i := of_decide_eq_true hei
  exact h.ne_of_links h0 (hent ▸ he) (hei ▸ hi) hei

/-- **A name is inserted.** -/
theorem Tidy.insert (h : F.Tidy p) (hroom : F.Room p k) (hnew : F.names p name = none)
    (hn : name.Short) (h0 : i ≠ 0) (ht : F.type i &&& 0xF000 ≠ 0)
    (hc : i ≠ p → i ≠ 1 → (F.entries p).countP (fun e => e.inode = i) < F.links i)
    (hs : F.Sets F' p k ⟨i, name.stored⟩) :
    F'.Tidy p ∧ F'.names p = update (F.names p) name (some i) := by
  rw [hn.stored] at hs
  have hent := hs.entries_self
  have hslot : (⟨i, name⟩ : Dirent).slot = some (name, i) := Dirent.slot_eq_some.mpr ⟨rfl, h0⟩
  have hmap : (F'.entries p).map Dirent.slot =
      SlotMap.put ((F.entries p).map Dirent.slot) k (some (name, i)) := by
    rw [hent, map_putSlot, hslot]
  have hfree : ∀ hk : k < ((F.entries p).map Dirent.slot).length,
      ((F.entries p).map Dirent.slot)[k] = none := by
    intro hk
    rw [List.length_map] at hk
    rw [List.getElem_map, Dirent.slot, if_pos (hroom.2 hk)]
  have hmem : ∀ e ∈ F'.entries p, e = ⟨i, name⟩ ∨ e ∈ F.entries p := fun e he =>
    mem_putSlot (hent ▸ he)
  refine ⟨⟨?_, fun e he he0 => ?_, fun e he he0 => ?_, ?_, fun e he he0 => ?_,
    fun j hj hjp hj1 => ?_, ?_, ?_⟩, ?_⟩
  · rw [hs.type]
    exact h.dir
  · rcases hmem e he with rfl | he
    · exact absurd he0 h0
    · exact h.free e he he0
  · rcases hmem e he with rfl | he
    · exact hn
    · exact h.short e he he0
  · rw [hmap]
    exact h.distinct.put_new (SlotMap.get_eq_none_iff.mp hnew)
  · rw [hs.type]
    rcases hmem e he with rfl | he
    · exact ht
    · exact h.typed e he he0
  · rw [hs.links, hent]
    have hput := countP_putSlot (e := ⟨i, name⟩) (fun e => decide (e.inode = j)) hroom.1
    have hold := h.counted j hj hjp hj1
    by_cases hij : i = j
    · subst hij
      have := hc hjp hj1
      simp only [List.countP_singleton, decide_true, if_true] at hput
      omega
    · simp only [List.countP_singleton, hij, decide_false, Bool.false_eq_true, if_false] at hput
      omega
  · rw [hs.links]
    exact h.linked
  · rw [hs.links]
    exact h.root
  · unfold names
    rw [hmap]
    exact h.distinct.get_put_new hfree hnew

/-- **A name is removed**, and with it a link. -/
theorem Tidy.remove (h : F.Tidy p) (hk : k < (F.entries p).length)
    (he : (F.entries p)[k] = ⟨i, name⟩) (h0 : i ≠ 0) (hp : i ≠ p) (h1 : i ≠ 1)
    (hs : F.Sets F₁ p k ⟨0, CStr.empty⟩) (hl : F₁.Links F' i n) (hn : F.links i ≤ n + 1) :
    F'.Tidy p ∧ F'.names p = update (F.names p) name none := by
  have hent : F'.entries p = putSlot (F.entries p) k ⟨0, CStr.empty⟩ := by
    rw [hl.entries]
    exact hs.entries_self
  have hlinks : ∀ j, j ≠ i → F'.links j = F.links j := fun j hj => by
    rw [(congr (hl.of_ne hj)).2, hs.links]
  have htype : F'.type = F.type := hl.type.trans hs.type
  have hmap : (F'.entries p).map Dirent.slot =
    SlotMap.put ((F.entries p).map Dirent.slot) k none := by
    rw [hent, map_putSlot]
    rfl
  have hmem : ∀ e ∈ F'.entries p, e = ⟨0, CStr.empty⟩ ∨ e ∈ F.entries p := fun e he =>
    mem_putSlot (hent ▸ he)
  refine ⟨⟨?_, fun e he he0 => ?_, fun e he he0 => ?_, ?_, fun e he he0 => ?_,
    fun j hj hjp hj1 => ?_, ?_, ?_⟩, ?_⟩
  · rw [htype]
    exact h.dir
  · rcases hmem e he with rfl | he
    · rfl
    · exact h.free e he he0
  · rcases hmem e he with rfl | he
    · exact absurd rfl he0
    · exact h.short e he he0
  · rw [hmap]
    exact h.distinct.put_free
  · rw [htype]
    rcases hmem e he with rfl | he
    · exact absurd rfl he0
    · exact h.typed e he he0
  · rw [hent]
    have hput :=
      countP_putSlot (e := ⟨0, CStr.empty⟩) (fun e => decide (e.inode = j)) (Nat.le_of_lt hk)
    have hold := h.counted j hj hjp hj1
    rw [List.getElem?_eq_getElem hk, he] at hput
    simp only [Option.toList_some, List.countP_singleton, Ne.symm hj, decide_false,
      Bool.false_eq_true, if_false] at hput
    by_cases hij : i = j
    · subst hij
      rw [hl.links_self]
      simp only [decide_true, if_true] at hput
      omega
    · rw [hlinks j (Ne.symm hij)]
      simp only [hij, decide_false, Bool.false_eq_true, if_false] at hput
      omega
  · rw [hlinks p hp.symm]
    exact h.linked
  · rw [hlinks 1 h1.symm]
    exact h.root
  · unfold names
    rw [hmap]
    refine h.distinct.get_put_free (b := i) (by rwa [List.length_map]) ?_
    rw [List.getElem_map, he]
    exact Dirent.slot_eq_some.mpr ⟨rfl, h0⟩

end Files

end Cosiris.Cofs
