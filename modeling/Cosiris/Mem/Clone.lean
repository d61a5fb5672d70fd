import Cosiris.Mem.Frames

/-!
# Cloning an address space

`clone_directory`, which `fork` uses. The loops over the entries of the directory and of
its tables take one frame after the other from the free list; what they have
copied so far is described by the frames they have used, in that order. In
the end the new directory has the shared entries of the old one, and a copy of
every other page, in frames that were free (`clone_directory_copies`).
-/

namespace Cosiris.Mem

open Prog

/-! ### The frames of a directory -/

/-- The frame of a table entry that is present. -/
def pteFrame (v : ℕ) : Option ℕ := if v % 2 = 1 then some (v / 4096) else none

/-- The frames of the first `n` pages of the table in frame `t`. -/
def tableFrames (mem : Memory) (t n : ℕ) : List ℕ := (List.range n).filterMap fun j =>
  pteFrame (mem t j)

/-- The frames that belong to entry `i` of the directory in frame `d`: its table and the pages, if
the entry is not one that all processes share. -/
def slotFrames (mem : Memory) (d i : ℕ) : List ℕ :=
  if ¬Linked i ∧
    mem d i % 2 = 1 then mem d i / 4096 :: tableFrames mem (mem d i / 4096) 1024 else []

/-- The frames that belong to the first `n` entries. -/
def slotsFrames (mem : Memory) (d n : ℕ) : List ℕ := (List.range n).flatMap (slotFrames mem d)

/-- The frames that belong to a directory: its own, and those of its entries. -/
def owned (mem : Memory) (d : ℕ) : List ℕ := d :: slotsFrames mem d 1023

/-- An entry `w` of a table for a copy of the page that is mapped by `v`. -/
def PteCopy (mem₀ mem : Memory) (v w : ℕ) : Prop :=
  if v % 2 = 1 then w % 4096 = v % 4096 ∧ mem (w / 4096) = mem₀ (v / 4096) else w = 0

/-- Entry `i` of the directory in frame `d` is what `clone_directory` makes of that of `d₀`. -/
def SlotCopy (mem₀ : Memory) (d₀ : ℕ) (mem : Memory) (d i : ℕ) : Prop :=
  if mem₀ d₀ i % 2 = 0 then mem d i = 0
  else if Linked i then mem d i = mem₀ d₀ i
  else mem d i % 4096 = mem₀ d₀ i % 4096 ∧
    ∀ j, j < 1024 → PteCopy mem₀ mem (mem₀ (mem₀ d₀ i / 4096) j) (mem (mem d i / 4096) j)

section

variable {mem mem' mem₀ : Memory} {d d₀ t n i j v w : ℕ}

theorem tableFrames_succ :
    tableFrames mem t (n + 1) = tableFrames mem t n ++ (pteFrame (mem t n)).toList := by
  unfold tableFrames
  rw [List.range_succ, List.filterMap_append]
  congr 1

theorem slotsFrames_succ :
    slotsFrames mem d (n + 1) = slotsFrames mem d n ++ slotFrames mem d n := by
  unfold slotsFrames
  rw [List.range_succ, List.flatMap_append]
  simp

theorem tableFrames_mono {k : ℕ} (h : n ≤ k) : tableFrames mem t n <+: tableFrames mem t k := by
  induction k, h using Nat.le_induction with
  | base => exact List.prefix_refl _
  | succ k _ ih =>
    rw [tableFrames_succ]
    exact ih.trans (List.prefix_append _ _)

theorem slotsFrames_mono {k : ℕ} (h : n ≤ k) : slotsFrames mem d n <+: slotsFrames mem d k := by
  induction k, h using Nat.le_induction with
  | base => exact List.prefix_refl _
  | succ k _ ih =>
    rw [slotsFrames_succ]
    exact ih.trans (List.prefix_append _ _)

theorem mem_tableFrames (hj : j < n) (hp : mem t j % 2 = 1) :
    mem t j / 4096 ∈ tableFrames mem t n :=
  List.mem_filterMap.mpr ⟨j, List.mem_range.mpr hj, by simp [pteFrame, hp]⟩

theorem tableFrames_congr (h : ∀ j, j < n → mem' t j = mem t j) :
    tableFrames mem' t n = tableFrames mem t n := by
  unfold tableFrames
  refine List.filterMap_congr fun j hj => ?_
  rw [h j (List.mem_range.mp hj)]

theorem slotFrames_congr (hd : ¬Linked i → mem' d i = mem d i)
    (h : ∀ f ∈ slotFrames mem d i, mem' f = mem f) :
    slotFrames mem' d i = slotFrames mem d i := by
  unfold slotFrames at h ⊢
  by_cases hl : Linked i
  · rw [if_neg fun hp => hp.1 hl, if_neg fun hp => hp.1 hl]
  · rw [hd hl]
    split
    · rename_i hp
      rw [if_pos hp] at h
      rw [tableFrames_congr fun j _ => congrFun (h _ (by simp)) j]
    · rfl

theorem slotsFrames_congr (hd : ∀ i, i < n → ¬Linked i → mem' d i = mem d i)
    (h : ∀ f ∈ slotsFrames mem d n, mem' f = mem f) :
    slotsFrames mem' d n = slotsFrames mem d n := by
  induction n with
  | zero => rfl
  | succ n ih =>
    rw [slotsFrames_succ] at h
    rw [slotsFrames_succ, slotsFrames_succ,
      ih (fun i hi => hd i (by omega)) fun f hf => h f (by simp [hf]),
      slotFrames_congr (hd n (by omega)) fun f hf => h f (by simp [hf])]

theorem SlotCopy.congr (h : SlotCopy mem₀ d₀ mem d i) (hd : mem' d i = mem d i)
    (hf : ∀ f ∈ slotFrames mem d i, mem' f = mem f) : SlotCopy mem₀ d₀ mem' d i := by
  unfold SlotCopy at h ⊢
  rw [hd]
  split
  · rename_i h0
    rwa [if_pos h0] at h
  · rename_i h0
    rw [if_neg h0] at h
    split
    · rename_i hl
      rwa [if_pos hl] at h
    · rename_i hl
      rw [if_neg hl] at h
      obtain ⟨hflags, hptes⟩ := h
      have hp : mem d i % 2 = 1 := by omega
      have hs : slotFrames mem d i = mem d i / 4096 :: tableFrames mem (mem d i / 4096) 1024 :=
        if_pos ⟨hl, hp⟩
      rw [hs] at hf
      refine ⟨hflags, fun j hj => ?_⟩
      have hpte := hptes j hj
      unfold PteCopy at hpte ⊢
      rw [hf _ (by simp)]
      split
      · rename_i hv
        rw [if_pos hv] at hpte
        refine ⟨hpte.1, ?_⟩
        rw [hf _ (List.mem_cons_of_mem _ (mem_tableFrames hj (by omega)))]
        exact hpte.2
      · rename_i hv
        rwa [if_neg hv] at hpte

end

/-! ### One table -/

/-- From `m`, where `free` are the free frames, to `m'`, where `rest` are, `num_pages` has gone
along. -/
def Counted (m : Machine) (free : List ℕ) (m' : Machine) (rest : List ℕ) : Prop :=
  ∀ k, m.numPages = k + free.length → m'.numPages = k + rest.length

/-- What the tables of the current directory that are not shared refer to is in use, and is not
the table of the reserved page. -/
structure Source (m : Machine) (t : ℕ) (free : List ℕ) : Prop where
  table : ∀ i, i < 1023 → ¬Linked i → m.mem m.dir i % 2 = 1 → m.mem m.dir i / 4096 ∉ free
  page : ∀ i j, i < 1023 → j < 1024 → ¬Linked i → m.mem m.dir i % 2 = 1 →
      m.mem (m.mem m.dir i / 4096) j % 2 = 1 →
    m.mem (m.mem m.dir i / 4096) j / 4096 ∉ free ∧ m.mem (m.mem m.dir i / 4096) j / 4096 ≠ t

/-- Table `i` of the current directory copied, up to page `n`, to the table in frame `p`, with the
frames `pages`. -/
structure Copying (m₀ : Machine) (t i p : ℕ) (m₁ : Machine) (n : ℕ) (pages rest : List ℕ)
    (m : Machine) : Prop where
  sane : Sane m t rest
  dir : m.dir = m₀.dir
  heapEnd : m.heapEnd = m₀.heapEnd
  frames : tableFrames m.mem p n = pages
  same : ∀ f, f ∉ p :: (pages ++ rest) → m.mem f = m₁.mem f
  done : ∀ j, j < n → PteCopy m₀.mem m.mem (m₀.mem (m₀.mem m₀.dir i / 4096) j) (m.mem p j)
  todo : ∀ j, n ≤ j → m.mem p j = 0
  count : pages.length = (tableFrames m₀.mem (m₀.mem m₀.dir i / 4096) n).length

section

variable {m m₀ m₁ : Machine} {t f i j p v : ℕ} {free rest pages : List ℕ}
    {E : Halt → Machine → Prop}

theorem Counted.refl : Counted m free m free := fun _ h => h

theorem Counted.trans {m' m'' : Machine} {rest' : List ℕ} (h : Counted m free m' rest)
    (h' : Counted m' rest m'' rest') :
    Counted m free m'' rest' := fun k hk => h' k (h k hk)

theorem counted_take (c : ℕ → ℕ) (mem : Memory) :
    Counted m (f :: rest) ((m.take f c).withMem mem) rest := fun k hk => by
  show m.numPages - 1 = _
  rw [hk, List.length_cons]
  omega

theorem Sane.head_ne (h : Sane m t (f :: free)) : f ≠ m.dir ∧ f ≠ t :=
  ⟨fun e => h.dir_notMem (by simp [e]), fun e => h.table_notMem (by simp [e])⟩

theorem Rooted.wp_table {Q : ℕ → Machine → Prop} (h : Rooted m t v) (hi : i < 1024)
    (hp : m.mem m.dir i % 2 = 1) :
    wp (vread (ptablesPage + i) j) Q E m = Q (m.mem (m.mem m.dir i / 4096) j) m :=
      wp_vread (h.walk_table hi hp)

/-- A page that is present is copied to the first free frame. -/
theorem Sane.wp_clonePte {Q : Unit → Machine → Prop} (h : Sane m t (f :: rest)) (hi : i < 1023)
    (hj : j < 1024)
    (hp : m.mem m.dir i % 2 = 1) (he : m.mem (m.mem m.dir i / 4096) j % 2 = 1)
    (hsrc : m.mem (m.mem m.dir i / 4096) j / 4096 ≠ t ∧ m.mem (m.mem m.dir i / 4096) j / 4096 ≠ f)
    (htable : m.mem m.dir i / 4096 ≠ f) (hpd : p ≠ m.dir) (hpt : p ≠ t) :
    wp (clonePte (4096 * p) i j) Q E m =
      Q () ((m.take f (m.mem (m.mem (m.mem m.dir i / 4096) j / 4096))).withMem
        ((m.mem.fill f (m.mem (m.mem (m.mem m.dir i / 4096) j / 4096))).set p j
          (4096 * f + m.mem (m.mem m.dir i / 4096) j % 4096))) := by
  obtain ⟨hd, ht⟩ := h.head_ne
  have hzero := h.take fun _ => 0
  have hx : walk (m.take f fun _ => 0).mem m.dir (i * 1024 + j) = some ⟨m.mem m.dir i % 4096,
      m.mem (m.mem m.dir i / 4096) j % 4096, m.mem (m.mem m.dir i / 4096) j / 4096⟩ := by
    have h1 : (i * 1024 + j) / 1024 = i := by omega
    have h2 : (i * 1024 + j) % 1024 = j := by omega
    simp only [walk, h1, h2, Machine.take, Memory.fill_ne hd.symm, Memory.fill_ne htable, hp, he,
      and_self, if_true]
  have hcopy := fun Q : Unit → Machine → Prop =>
    @Rooted.wp_copy (m.take f fun _ => 0) t f E Q _ _ hzero.rooted hd ht hx
    hsrc.1
  have hfill :
    ((m.take f fun _ => 0).withMem ((m.take f fun _ => 0).mem.fill f ((m.take f fun _ => 0).mem
      (m.mem (m.mem m.dir i / 4096) j / 4096)))) =
        m.take f (m.mem (m.mem (m.mem m.dir i / 4096) j / 4096)) := by
    simp only [Machine.take, Machine.withMem, Memory.fill_ne hsrc.2]
    simp only [Memory.fill, Function.update_idem]
  have hpoke := fun (Q : Unit → Machine → Prop) (v : ℕ) => @Rooted.wp_poke _ t p j v E Q
    (h.take (m.mem (m.mem (m.mem m.dir i / 4096) j / 4096))).rooted hpd hpt
  simp only [wp_bind] at hcopy hpoke
  simp only [clonePte, wp_bind, h.rooted.wp_table (show i < 1024 by omega) hp, if_pos he,
    h.wp_frameCalloc]
  rw [hcopy, hfill, hpoke, entry_eq (Nat.mod_lt _ (by decide))]
  rfl

/-- The state before the pages of table `i` are copied to the new table in frame `p`, with the
frames `free`. -/
structure Before (m₀ : Machine) (t i p : ℕ) (all free : List ℕ) (m₁ : Machine) : Prop where
  idx : i < 1023
  own : ¬Linked i
  present : m₀.mem m₀.dir i % 2 = 1
  source : Source m₀ t all
  dir_notMem : m₀.dir ∉ all
  same : ∀ f, f ∉ all → m₁.mem f = m₀.mem f
  subset : ∀ f ∈ p :: free, f ∈ all
  nodup : (p :: free).Nodup
  table_notMem : t ∉ all

/-- Another page has been copied, to frame `f`. -/
theorem Copying.advance {n : ℕ} (h : Copying m₀ t i p m₁ n pages (f :: rest) m)
    (hnd : (p :: (pages ++ f :: rest)).Nodup)
    (he : m₀.mem (m₀.mem m₀.dir i / 4096) n % 2 = 1) (hpd : p ≠ m.dir) (hpt : p ≠ t) :
    Copying m₀ t i p m₁ (n + 1) (pages ++ [f]) rest
      ((m.take f (m₀.mem (m₀.mem (m₀.mem m₀.dir i / 4096) n / 4096))).withMem
        ((m.mem.fill f (m₀.mem (m₀.mem (m₀.mem m₀.dir i / 4096) n / 4096))).set p n
          (4096 * f + m₀.mem (m₀.mem m₀.dir i / 4096) n % 4096))) := by
  obtain ⟨hp, hnd⟩ := List.nodup_cons.mp hnd
  simp only [List.mem_append, List.mem_cons, not_or] at hp
  obtain ⟨hpp, hpf, hpr⟩ := hp
  have hpages : ∀ g ∈ pages, g ≠ p ∧ g ≠ f := fun g hg =>
    ⟨fun e => hpp (e ▸ hg), fun e => (List.nodup_append.mp hnd).2.2 g hg f (by simp) e⟩
  generalize hc : m₀.mem (m₀.mem (m₀.mem m₀.dir i / 4096) n / 4096) = c
  generalize hv : 4096 * f + m₀.mem (m₀.mem m₀.dir i / 4096) n % 4096 = v
  have hvmod : v % 4096 = m₀.mem (m₀.mem m₀.dir i / 4096) n % 4096 := by omega
  have hvdiv : v / 4096 = f := by omega
  have hword : ∀ j, j ≠ n → (m.mem.fill f c).set p n v p j = m.mem p j := fun j hj => by
    rw [Memory.set_word_ne hj, Memory.fill_ne hpf]
  have hframe : ∀ g, g ≠ p → g ≠ f → (m.mem.fill f c).set p n v g = m.mem g := fun g h1 h2 => by
    rw [Memory.set_ne h1, Memory.fill_ne h2]
  refine ⟨(h.sane.take c).fill hpd hpt hpr _, h.dir, h.heapEnd,
    ?_, fun g hg => ?_, fun j hj => ?_, fun j hj => ?_, ?_⟩
  · rw [tableFrames_succ, Machine.withMem_mem, tableFrames_congr fun j hj => hword j (by omega),
      h.frames, Memory.set_self]
    simp only [pteFrame, hvdiv]
    rw [if_pos (by omega)]
    rfl
  · simp only [List.mem_cons, List.mem_append, List.not_mem_nil, or_false, not_or] at hg
    rw [Machine.withMem_mem, hframe g hg.1 hg.2.1.2]
    exact h.same g (by simp [hg])
  · simp only [Machine.withMem_mem]
    rcases Nat.lt_succ_iff_lt_or_eq.mp hj with hj | rfl
    · have hdone := h.done j hj
      unfold PteCopy at hdone ⊢
      rw [hword j (by omega)]
      split
      · rename_i hp
        rw [if_pos hp] at hdone
        have hmem : m.mem p j / 4096 ∈ pages := h.frames ▸ mem_tableFrames hj (by omega)
        exact ⟨hdone.1, (hframe _ (hpages _ hmem).1 (hpages _ hmem).2).trans hdone.2⟩
      · rename_i hp
        rwa [if_neg hp] at hdone
    · rw [PteCopy, if_pos he, Memory.set_self, hvmod, hvdiv, Memory.set_ne (Ne.symm hpf),
        Memory.fill_self]
      exact ⟨rfl, hc.symm⟩
  · rw [Machine.withMem_mem, hword j (by omega)]
    exact h.todo j (by omega)
  · rw [tableFrames_succ, List.length_append, List.length_append, h.count]
    simp [pteFrame, he]

/-- One round of the loop of `clone_pde`. -/
theorem Copying.step {all : List ℕ} {n : ℕ} (hb : Before m₀ t i p all (pages ++ rest) m₁)
    (h : Copying m₀ t i p m₁ n pages rest m) (hn : n < 1024) :
    wp (clonePte (4096 * p) i n) (fun _ m' => ∃ pages' rest', pages' ++ rest' = pages ++ rest ∧
      Copying m₀ t i p m₁ (n + 1) pages' rest' m' ∧ Counted m rest m' rest')
      (fun e _ => e = outOfFrames ∧
        (pages ++ rest).length < (tableFrames m₀.mem (m₀.mem m₀.dir i / 4096) 1024).length) m := by
  have hsame : ∀ f, f ∉ all → m.mem f = m₀.mem f := fun f hf =>
    (h.same f fun hm => hf (hb.subset f hm)).trans (hb.same f hf)
  have hdir : m.mem m.dir i = m₀.mem m₀.dir i := by rw [h.dir, hsame _ hb.dir_notMem]
  have hS : m₀.mem m₀.dir i / 4096 ∉ all := hb.source.table i hb.idx hb.own hb.present
  have hent : m.mem (m.mem m.dir i / 4096) n = m₀.mem (m₀.mem m₀.dir i / 4096) n := by
    rw [hdir, hsame _ hS]
  have hp : m.mem m.dir i % 2 = 1 := by rw [hdir]; exact hb.present
  have hpnd := List.nodup_cons.mp hb.nodup
  have hpall : p ∈ all := hb.subset p (by simp)
  by_cases he : m₀.mem (m₀.mem m₀.dir i / 4096) n % 2 = 1
  · obtain ⟨hpg, hpgt⟩ := hb.source.page i n hb.idx hn hb.own hb.present he
    have hlen : (tableFrames m₀.mem (m₀.mem m₀.dir i / 4096) (n + 1)).length =
      pages.length + 1 := by
      rw [tableFrames_succ, List.length_append, h.count]
      simp [pteFrame, he]
    have hmono :=
      (@tableFrames_mono m₀.mem (m₀.mem m₀.dir i / 4096) (n + 1) 1024 (by omega)).length_le
    cases rest with
    | nil =>
      simp only [clonePte, wp_bind,
        h.sane.rooted.wp_table (show i < 1024 by have := hb.idx; omega) hp,
        hent, if_pos he,
        h.sane.wp_frameCalloc_nil]
      exact ⟨trivial, by rw [List.append_nil]; omega⟩
    | cons f rest =>
    have hfall : f ∈ all := hb.subset f (by simp)
    have hpf : p ≠ f := fun e => hpnd.1 (by simp [e])
    have hpd : p ≠ m.dir := fun e => hb.dir_notMem (by rw [← h.dir, ← e]; exact hpall)
    have hpt : p ≠ t := fun e => hb.table_notMem (e ▸ hpall)
    rw [h.sane.wp_clonePte hb.idx hn hp (by rw [hent]; exact he)
      (by rw [hent]; exact ⟨hpgt, fun e => hpg (e ▸ hfall)⟩)
      (by rw [hdir]; exact fun e => hS (e ▸ hfall)) hpd hpt]
    rw [hent]
    refine ⟨pages ++ [f], rest, by simp, ?_, counted_take _ _⟩
    rw [hsame _ hpg]
    exact h.advance hb.nodup he hpd hpt
  · have hent' : ¬m.mem (m.mem m.dir i / 4096) n % 2 = 1 := by rwa [hent]
    simp only [clonePte, wp_bind,
      h.sane.rooted.wp_table (show i < 1024 by have := hb.idx; omega) hp,
      if_neg hent', wp_pure]
    have hz := h.todo n le_rfl
    refine ⟨pages, rest, rfl,
      ⟨h.sane, h.dir, h.heapEnd, ?_, h.same, fun j hj => ?_, fun j hj => h.todo j (by omega), ?_⟩,
      .refl⟩
    · rw [tableFrames_succ, h.frames, hz]
      simp [pteFrame]
    · rcases Nat.lt_succ_iff_lt_or_eq.mp hj with hj | rfl
      · exact h.done j hj
      · rw [PteCopy, if_neg he]
        exact hz
    · rw [tableFrames_succ, List.length_append, h.count]
      simp [pteFrame, he]

/-- The loop of `clone_pde`. -/
theorem Copying.loop {all : List ℕ} (hb : Before m₀ t i p all free m₁)
    (h : Copying m₀ t i p m₁ 0 [] free m) :
    wp (upTo (clonePte (4096 * p) i) 1024) (fun _ m' => ∃ pages rest, pages ++ rest = free ∧
      Copying m₀ t i p m₁ 1024 pages rest m' ∧ Counted m free m' rest)
      (fun e _ => e = outOfFrames ∧
        free.length < (tableFrames m₀.mem (m₀.mem m₀.dir i / 4096) 1024).length) m := by
  refine wp_upTo (I := fun n m' => ∃ pages rest, pages ++ rest = free ∧
    Copying m₀ t i p m₁ n pages rest m' ∧
    Counted m free m' rest) ⟨[], free, rfl, h, .refl⟩ ?_
  rintro n m' hn ⟨pages, rest, rfl, hcopy, hcount⟩
  refine (hcopy.step hb hn).mono ?_ fun _ _ => id
  rintro - m'' ⟨pages', rest', hlist, hcopy', hcount'⟩
  exact ⟨pages', rest', hlist, hcopy', hcount.trans hcount'⟩

end

/-! ### The directory -/

/-- The first `n` entries of the current directory cloned to the directory in frame `d`, with the
frames `used`. -/
structure Cloning (m₀ : Machine) (t d n : ℕ) (used rest : List ℕ) (m : Machine) : Prop where
  sane : Sane m t rest
  dir : m.dir = m₀.dir
  heapEnd : m.heapEnd = m₀.heapEnd
  frames : slotsFrames m.mem d n = used
  same : ∀ f, f ∉ d :: (used ++ rest) → m.mem f = m₀.mem f
  done : ∀ i, i < n → SlotCopy m₀.mem m₀.dir m.mem d i
  todo : ∀ i, n ≤ i → m.mem d i = 0
  count : used.length = (slotsFrames m₀.mem m₀.dir n).length

/-- What the loop of `clone_directory` needs: `d` and `free` are frames that were free, and
nothing of the current address space. -/
structure Ready (m₀ : Machine) (t d : ℕ) (free : List ℕ) : Prop where
  source : Source m₀ t (d :: free)
  dir_notMem : m₀.dir ∉ d :: free
  table_notMem : t ∉ d :: free
  nodup : (d :: free).Nodup

section

variable {m m₀ m' : Machine} {t d n v : ℕ} {used rest new rest' : List ℕ}

/-- Entry `n` of the directory in frame `d` has been written, and the frames `new` have been taken
for it. -/
structure Extended (t d n : ℕ) (new rest' rest : List ℕ) (m m' : Machine) : Prop where
  list : new ++ rest' = rest
  sane : Sane m' t rest'
  dir : m'.dir = m.dir
  heapEnd : m'.heapEnd = m.heapEnd
  slots : ∀ i, i ≠ n → m'.mem d i = m.mem d i
  same : ∀ f, f ≠ d → f ∉ rest → m'.mem f = m.mem f
  pages : Counted m rest m' rest'

theorem Extended.refl (h : Sane m t rest) : Extended t d n [] rest rest m m :=
  ⟨rfl, h, rfl, rfl, fun _ _ => rfl, fun _ _ _ => rfl, .refl⟩

theorem Extended.write (h : Sane (m.withMem (m.mem.set d n v)) t rest) :
    Extended t d n [] rest rest m (m.withMem (m.mem.set d n v)) :=
  ⟨rfl, h, rfl, rfl, fun _ hi => Memory.set_word_ne hi,
    fun _ hf _ => Memory.set_ne hf, fun _ h => h⟩

/-- One more entry is cloned. -/
theorem Cloning.extend (h : Cloning m₀ t d n used rest m) (hd : d ∉ used)
    (hnd : ∀ f ∈ used, f ∉ rest) (hx : Extended t d n new rest' rest m m')
    (frames : slotFrames m'.mem d n = new) (done : SlotCopy m₀.mem m₀.dir m'.mem d n)
    (count : new.length = (slotFrames m₀.mem m₀.dir n).length) :
    Cloning m₀ t d (n + 1) (used ++ new) rest' m' := by
  have hkeep : ∀ f ∈ used, m'.mem f = m.mem f :=
    fun f hf => hx.same f (fun e => hd (e ▸ hf)) (hnd f hf)
  have hframes : slotsFrames m'.mem d n = used := by
    rw [← h.frames]
    refine slotsFrames_congr (fun i hi _ => hx.slots i (by omega)) fun f hf =>
      hkeep f (h.frames ▸ hf)
  refine ⟨hx.sane, hx.dir.trans h.dir, hx.heapEnd.trans h.heapEnd,
    ?_, fun f hf => ?_, fun i hi => ?_, fun i hi => ?_, ?_⟩
  · rw [slotsFrames_succ, hframes, frames]
  · rw [List.append_assoc, hx.list] at hf
    simp only [List.mem_cons, List.mem_append, not_or] at hf
    rw [hx.same f hf.1 hf.2.2]
    exact h.same f (by simp [hf])
  · rcases Nat.lt_succ_iff_lt_or_eq.mp hi with hi | rfl
    · refine (h.done i hi).congr (hx.slots i (by omega)) fun f hf => hkeep f ?_
      rw [← h.frames]
      exact List.mem_flatMap.mpr ⟨i, List.mem_range.mpr hi, hf⟩
    · exact done
  · rw [hx.slots i (by omega)]
    exact h.todo i (by omega)
  · rw [slotsFrames_succ, List.length_append, List.length_append, h.count, count]

/-- The state between two entries: the frames `used` belong to the directory in frame `d`, the
frames `rest` are free, and nothing else has changed. -/
structure Midway (m₀ : Machine) (t d : ℕ) (used rest : List ℕ) (m : Machine) : Prop where
  sane : Sane m t rest
  dir : m.dir = m₀.dir
  heapEnd : m.heapEnd = m₀.heapEnd
  same : ∀ f, f ∉ d :: (used ++ rest) → m.mem f = m₀.mem f

theorem Cloning.midway (h : Cloning m₀ t d n used rest m) : Midway m₀ t d used rest m :=
  ⟨h.sane, h.dir, h.heapEnd, h.same⟩

theorem Midway.entry (h : Midway m₀ t d used rest m) (hr : Ready m₀ t d (used ++ rest)) (i : ℕ) :
    m.mem m.dir i = m₀.mem m₀.dir i := by rw [h.dir, h.same _ hr.dir_notMem]

theorem Midway.ne (h : Midway m₀ t d used rest m) (hr : Ready m₀ t d (used ++ rest)) :
    d ≠ m.dir ∧ d ≠ t :=
  ⟨fun e => hr.dir_notMem (by rw [← h.dir, ← e]; exact List.mem_cons_self), fun e =>
    hr.table_notMem (by simp [← e])⟩

/-- An entry is written into the new directory. -/
theorem Midway.write (h : Midway m₀ t d used rest m) (hr : Ready m₀ t d (used ++ rest)) (v : ℕ) :
    Sane (m.withMem (m.mem.set d n v)) t rest := by
  obtain ⟨hd, -⟩ := List.nodup_cons.mp hr.nodup
  obtain ⟨hdd, hdt⟩ := h.ne hr
  exact h.sane.fill hdd hdt (fun hm => hd (by simp [hm])) _

theorem Rooted.wp_linkPde {Q : Unit → Machine → Prop} {E : Halt → Machine → Prop} {f i : ℕ}
    (h : Rooted m t 0)
    (hd : f ≠ m.dir) (ht : f ≠ t) :
    wp (linkPde (4096 * f) i) Q E m = Q () (m.withMem (m.mem.set f i (m.mem m.dir i))) := by
  have hpoke := @Rooted.wp_poke m t f i (m.mem m.dir i) E Q h hd ht
  simp only [wp_bind, h.wp_tempMap] at hpoke
  simp only [linkPde, wp_bind, h.wp_tempMap, (h.setResv _).wp_pdir]
  rw [Machine.withMem_mem, Machine.withMem_dir, Memory.set_ne h.ne.symm, hpoke]

/-- An entry that is not shared is cloned. -/
theorem Midway.clonePde (hr : Ready m₀ t d (used ++ rest)) (h : Midway m₀ t d used rest m)
    (hn : n < 1023)
    (hp : m₀.mem m₀.dir n % 2 = 1) (hl : ¬Linked n) :
    wp (clonePde (4096 * d) n) (fun _ m' => ∃ new rest', Extended t d n new rest' rest m m' ∧
      slotFrames m'.mem d n = new ∧ SlotCopy m₀.mem m₀.dir m'.mem d n ∧
        new.length = (slotFrames m₀.mem m₀.dir n).length)
      (fun e _ => e = outOfFrames ∧ rest.length < (slotFrames m₀.mem m₀.dir n).length) m := by
  have hf₀ : slotFrames m₀.mem m₀.dir n =
    m₀.mem m₀.dir n / 4096 :: tableFrames m₀.mem (m₀.mem m₀.dir n / 4096) 1024 :=
    if_pos ⟨hl, hp⟩
  have hdir := h.entry hr n
  cases rest with
  | nil =>
    simp only [Mem.clonePde, wp_bind, h.sane.rooted.wp_pdir, h.sane.wp_frameCalloc_nil, hf₀]
    exact ⟨trivial, Nat.succ_pos _⟩
  | cons p rest =>
  obtain ⟨hd, hnd⟩ := List.nodup_cons.mp hr.nodup
  simp only [List.mem_append, List.mem_cons, not_or] at hd
  obtain ⟨hdu, hdp, hdr⟩ := hd
  have hnd' := List.nodup_append.mp hnd
  obtain ⟨hdd, hdt⟩ := h.ne hr
  have htake := h.sane.take fun _ => 0
  have hpoke := fun (Q : Unit → Machine → Prop) (E : Halt → Machine → Prop) (v : ℕ) =>
    @Rooted.wp_poke (m.take p fun _ => 0) t d n v E Q htake.rooted hdd hdt
  simp only [wp_bind] at hpoke
  simp only [Mem.clonePde, wp_bind, h.sane.rooted.wp_pdir, hdir, h.sane.wp_frameCalloc]
  rw [hpoke, entry_eq (Nat.mod_lt _ (by decide))]
  generalize hv : 4096 * p + m₀.mem m₀.dir n % 4096 = v
  have hvmod : v % 4096 = m₀.mem m₀.dir n % 4096 := by omega
  have hvdiv : v / 4096 = p := by omega
  let m₁ := (m.take p fun _ => 0).withMem ((m.take p fun _ => 0).mem.set d n v)
  have hsame₁ : ∀ f, f ≠ d → f ≠ p → m₁.mem f = m.mem f := fun f h1 h2 =>
    (Memory.set_ne h1).trans (Memory.fill_ne h2)
  have hb : Before m₀ t n p (d :: (used ++ p :: rest)) rest m₁ := by
    refine ⟨hn, hl, hp, hr.source,
      hr.dir_notMem, fun f hf => ?_, fun f hf => by simp_all, hnd'.2.1, hr.table_notMem⟩
    rw [hsame₁ f (fun e => hf (by simp [e])) fun e => hf (by simp [e])]
    exact h.same f hf
  have hstart : Copying m₀ t n p m₁ 0 [] rest m₁ := by
    refine ⟨htake.fill hdd hdt hdr _, h.dir, ?_,
      rfl, fun _ _ => rfl, fun j hj => by omega, fun j _ => ?_, rfl⟩
    · exact h.heapEnd
    · show (m.mem.fill p fun _ => 0).set d n v p j = 0
      rw [Memory.set_ne (Ne.symm hdp), Memory.fill_self]
  refine (hstart.loop hb).mono ?_ fun e _ he =>
    ⟨he.1, by rw [hf₀, List.length_cons, List.length_cons]; omega⟩
  rintro - m' ⟨pages, rest', hlist, hc, hcount⟩
  have hkeep : ∀ f, f ∉ p :: rest → m'.mem f = m₁.mem f := fun f hf => hc.same f (by rwa [hlist])
  have hslot : ∀ i, m'.mem d i = m₁.mem d i := fun i => congrFun (hkeep d (by simp [hdp, hdr])) i
  have hdn : m'.mem d n = v := (hslot n).trans Memory.set_self
  refine ⟨p :: pages, rest',
    ⟨by simp [← hlist], hc.sane, hc.dir.trans h.dir.symm, hc.heapEnd.trans h.heapEnd.symm,
    fun i hi => ?_, fun f h1 h2 => ?_, (counted_take _ _).trans hcount⟩, ?_, ?_, ?_⟩
  · rw [hslot i]
    show (m.mem.fill p fun _ => 0).set d n v d i = m.mem d i
    rw [Memory.set_word_ne hi, Memory.fill_ne hdp]
  · rw [hkeep f h2]
    exact hsame₁ f h1 fun e => h2 (by simp [e])
  · rw [slotFrames, if_pos ⟨hl, by rw [hdn]; omega⟩, hdn, hvdiv, hc.frames]
  · rw [SlotCopy, if_neg (by omega), if_neg hl, hdn, hvdiv]
    exact ⟨hvmod, hc.done⟩
  · rw [hf₀, List.length_cons, List.length_cons, hc.count]

/-- One round of the loop of `clone_directory`. -/
theorem Cloning.step (hr : Ready m₀ t d (used ++ rest)) (h : Cloning m₀ t d n used rest m)
    (hn : n < 1023) :
    wp (cloneEntry (4096 * d) n) (fun _ m' => ∃ used' rest', used' ++ rest' = used ++ rest ∧
      Cloning m₀ t d (n + 1) used' rest' m' ∧ Counted m rest m' rest')
      (fun e _ => e = outOfFrames ∧ (used ++ rest).length < (slotsFrames m₀.mem m₀.dir 1023).length)
        m := by
  obtain ⟨hd, hnd⟩ := List.nodup_cons.mp hr.nodup
  have hdu : d ∉ used := fun hm => hd (by simp [hm])
  have hur : ∀ f ∈ used, f ∉ rest := fun f hf hf' => (List.nodup_append.mp hnd).2.2 f hf f hf' rfl
  have hdir := h.midway.entry hr n
  obtain ⟨hdd, hdt⟩ := h.midway.ne hr
  have hz := h.todo n le_rfl
  have hmono := (@slotsFrames_mono m₀.mem m₀.dir (n + 1) 1023 hn).length_le
  rw [slotsFrames_succ, List.length_append, ← h.count] at hmono
  simp only [cloneEntry, wp_bind, h.sane.rooted.wp_pdir, hdir]
  by_cases hp : m₀.mem m₀.dir n % 2 = 1
  case neg =>
    rw [if_neg hp, wp_pure]
    have hf : slotFrames m.mem d n = [] := if_neg fun hs => by omega
    have hf₀ : slotFrames m₀.mem m₀.dir n = [] := if_neg fun hs => hp hs.2
    exact ⟨used ++ [], rest, by simp, h.extend hdu hur (.refl h.sane) hf
      (by rw [SlotCopy, if_pos (by omega)]; exact hz) (by rw [hf₀]), .refl⟩
  rw [if_pos hp]
  by_cases hl : Linked n
  case pos =>
    rw [if_pos hl, h.sane.rooted.wp_linkPde hdd hdt, hdir]
    have hf : slotFrames (m.mem.set d n (m₀.mem m₀.dir n)) d n = [] := if_neg fun hs => hs.1 hl
    have hf₀ : slotFrames m₀.mem m₀.dir n = [] := if_neg fun hs => hs.1 hl
    exact ⟨used ++ [], rest, by simp, h.extend hdu hur (.write (h.midway.write hr _)) hf
      (by rw [SlotCopy, if_neg (by omega), if_pos hl]; exact Memory.set_self) (by rw [hf₀]),
      fun _ h => h⟩
  rw [if_neg hl]
  refine (h.midway.clonePde hr hn hp hl).mono ?_ fun e _ he =>
    ⟨he.1, by rw [List.length_append]; omega⟩
  rintro - m' ⟨new, rest', hx, hf, hdone, hcount⟩
  exact ⟨used ++ new,
    rest', by rw [List.append_assoc, hx.list], h.extend hdu hur hx hf hdone hcount, hx.pages⟩

/-- The loop of `clone_directory`. -/
theorem Cloning.loop {free : List ℕ} (hr : Ready m₀ t d free) (h : Cloning m₀ t d 0 [] free m) :
    wp (upTo (cloneEntry (4096 * d)) 1023) (fun _ m' => ∃ used rest, used ++ rest = free ∧
      Cloning m₀ t d 1023 used rest m' ∧ Counted m free m' rest)
      (fun e _ => e = outOfFrames ∧ free.length < (slotsFrames m₀.mem m₀.dir 1023).length) m := by
  refine wp_upTo (I := fun n m' => ∃ used rest, used ++ rest = free ∧
    Cloning m₀ t d n used rest m' ∧
    Counted m free m' rest) ⟨[], free, rfl, h, .refl⟩ ?_
  rintro n m' hn ⟨used, rest, rfl, hclone, hcount⟩
  refine (hclone.step hr hn).mono ?_ fun _ _ => id
  rintro - m'' ⟨used', rest', hlist, hclone', hcount'⟩
  exact ⟨used', rest', hlist, hclone', hcount.trans hcount'⟩

/-- The directory in frame `d` is a clone of the current one, with the frames `used`. -/
structure Cloned (m₀ : Machine) (t d : ℕ) (used rest : List ℕ) (m : Machine) : Prop where
  sane : Sane m t rest
  dir : m.dir = m₀.dir
  heapEnd : m.heapEnd = m₀.heapEnd
  frames : owned m.mem d = d :: used
  same : ∀ f, f ∉ d :: (used ++ rest) → m.mem f = m₀.mem f
  copy : ∀ i, i < 1023 → SlotCopy m₀.mem m₀.dir m.mem d i
  self : m.mem d 1023 = 4096 * d + 3

/-- **`clone_directory`** clones the current directory, or finds too few free frames. -/
theorem cloneDirectory_spec {free : List ℕ} (hs : Sane m t (d :: free))
    (hsrc : Source m t (d :: free)) :
    wp cloneDirectory (fun a m' => a = 4096 * d ∧ ∃ used rest, used ++ rest = free ∧
      Cloned m t d used rest m' ∧
      Counted m (d :: free) m' rest)
      (fun e _ => e = outOfFrames ∧ free.length < (slotsFrames m.mem m.dir 1023).length) m := by
  have hr : Ready m t d free := ⟨hsrc, hs.dir_notMem, hs.table_notMem, hs.nodup⟩
  obtain ⟨hdd, hdt⟩ := hs.head_ne
  have hstart : Cloning m t d 0 [] free (m.take d fun _ => 0) := by
    refine ⟨hs.take _, rfl, rfl, rfl, fun f hf => ?_, fun i hi => by omega, fun i _ => ?_, rfl⟩
    · exact Memory.fill_ne fun e => hf (by simp [e])
    · exact congrFun Memory.fill_self i
  simp only [cloneDirectory, wp_bind, hs.wp_frameCalloc]
  refine (hstart.loop hr).mono ?_ fun _ _ => id
  rintro - m₁ ⟨used, rest, rfl, h, hcount⟩
  have hdd₁ : d ≠ m₁.dir := by rw [h.dir]; exact hdd
  have hpoke := fun Q E v => @Rooted.wp_poke m₁ t d 1023 v E Q h.sane.rooted hdd₁ hdt
  simp only [wp_bind] at hpoke
  simp only [recursivelyMapPageDirectory, wp_bind, hpoke, wp_pure]
  rw [entry_eq (by decide)]
  obtain ⟨hd, -⟩ := List.nodup_cons.mp hs.nodup
  have hdr : d ∉ rest := fun hm => hd (by simp [hm])
  have hdu : ∀ f ∈ used, f ≠ d := fun f hf e => hd (by simp [← e, hf])
  refine ⟨trivial, used, rest, rfl,
    ⟨h.sane.fill hdd₁ hdt hdr _, h.dir, h.heapEnd, ?_, fun f hf => ?_, fun i hi => ?_, ?_⟩,
      (counted_take (f := d) (fun _ => 0) _).trans hcount⟩
  · rw [owned, ← h.frames]
    refine congrArg _
      (slotsFrames_congr (fun i hi _ => Memory.set_word_ne (by omega)) fun f hf => Memory.set_ne ?_)
    exact hdu f (h.frames ▸ hf)
  · rw [Machine.withMem_mem, Memory.set_ne fun e => hf (by simp [e])]
    exact h.same f hf
  · refine (h.done i hi).congr (Memory.set_word_ne (by omega)) fun f hf => Memory.set_ne (hdu f ?_)
    rw [← h.frames]
    exact List.mem_flatMap.mpr ⟨i, List.mem_range.mpr hi, hf⟩
  · exact Memory.set_self

end

/-! ### What the clone maps -/

/-- The current address space: none of the frames that it maps or uses for its tables is free, and
the table of the reserved page is not mapped as a page. -/
structure AddressSpace (m : Machine) (t : ℕ) (free : List ℕ) : Prop extends Sane m t free where
  table : ∀ i, i < 1023 → m.mem m.dir i % 2 = 1 → m.mem m.dir i / 4096 ∉ free
  page : ∀ page x, page / 1024 < 1023 → walk m.mem m.dir page = some x →
      x.frame ∉ free ∧ x.frame ≠ t

/-- A page mapped with the same flags to a frame with the same contents, or neither of the two
mapped. -/
def CopyOf (mem₀ mem : Memory) : Option Mapping → Option Mapping → Prop
  | none, none => True
  | some x, some y => y.dirFlags = x.dirFlags ∧ y.flags = x.flags ∧ mem y.frame = mem₀ x.frame
  | _, _ => False

section

variable {m m' : Machine} {t d page : ℕ} {free used rest : List ℕ}

theorem walk_of_absent {mem : Memory} (h : mem d (page / 1024) % 2 = 0) :
    walk mem d page = none := by
  unfold walk
  rw [if_neg fun hp => by omega]

theorem AddressSpace.source (h : AddressSpace m t free) : Source m t free where
  table i hi _ hp := h.table i hi hp
  page i j hi hj _ hp he := by
    have h1 : (i * 1024 + j) / 1024 = i := by omega
    have h2 : (i * 1024 + j) % 1024 = j := by omega
    refine h.page (i * 1024 + j) ⟨m.mem m.dir i % 4096, m.mem (m.mem m.dir i / 4096) j % 4096, _⟩
      (by omega) ?_
    rw [walk, h1, h2, if_pos ⟨hp, he⟩]

/-- The pages of a shared entry. -/
theorem Cloned.walk_linked (h : Cloned m t d used rest m')
    (ha : AddressSpace m t (d :: (used ++ rest))) (hp : page / 1024 < 1023)
    (hl : Linked (page / 1024)) :
    walk m'.mem d page = walk m.mem m.dir page := by
  have hc := h.copy _ hp
  unfold SlotCopy at hc
  split at hc
  · rename_i h0
    rw [walk_of_absent h0, walk_of_absent (by rw [hc])]
  · rename_i h0
    have htable := ha.table _ hp (by omega)
    simp only [walk, hc, h.same _ htable]

/-- The pages of the other entries. -/
theorem Cloned.walk_copy (h : Cloned m t d used rest m') (hp : page / 1024 < 1023)
    (hl : ¬Linked (page / 1024)) :
    CopyOf m.mem m'.mem (walk m.mem m.dir page) (walk m'.mem d page) := by
  have hc := h.copy _ hp
  unfold SlotCopy at hc
  split at hc
  · rename_i h0
    rw [walk_of_absent h0, walk_of_absent (by rw [hc])]
    trivial
  · rename_i h0
    obtain ⟨hflags, hptes⟩ := hc
    have hpte := hptes (page % 1024) (Nat.mod_lt _ (by decide))
    unfold PteCopy at hpte
    unfold walk
    dsimp only
    split at hpte
    · rename_i he
      rw [if_pos ⟨by omega, he⟩, if_pos ⟨by omega, by omega⟩]
      exact ⟨hflags, hpte.1, hpte.2⟩
    · rename_i he
      rw [if_neg fun hh => he hh.2, if_neg fun hh => by omega]
      trivial

/-- Frames that the current directory does not use may change. -/
theorem AddressSpace.walk_eq (h : AddressSpace m t free)
    (hsame : ∀ f, f ∉ free → m'.mem f = m.mem f)
    (hp : page < 2 ^ 20) : walk m'.mem m.dir page = walk m.mem m.dir page := by
  have hd := hsame _ h.dir_notMem
  rcases Nat.lt_or_ge (page / 1024) 1023 with hp | hge
  case inr =>
    have h1 : page / 1024 = 1023 := by omega
    simp only [walk, h1, hd, h.rooted.self]
  by_cases h0 : m.mem m.dir (page / 1024) % 2 = 1
  · simp only [walk, hd, hsame _ (h.table _ hp h0)]
  · have h0' : m.mem m.dir (page / 1024) % 2 = 0 := by omega
    rw [walk_of_absent h0', walk_of_absent (by rwa [hd])]

/-- No frame that is mapped is free: the last entry maps the tables and the directory itself. -/
theorem AddressSpace.frame_notMem (h : AddressSpace m t free) (hp : page < 2 ^ 20) {x : Mapping}
    (hx : walk m.mem m.dir page = some x) : x.frame ∉ free := by
  rcases Nat.lt_or_ge (page / 1024) 1023 with hlt | hge
  · exact (h.page page x hlt hx).1
  · have h1 : page / 1024 = 1023 := by omega
    simp only [walk, h1, h.rooted.self] at hx
    split at hx
    case isFalse => cases hx
    case isTrue hpte =>
      obtain rfl := Option.some.inj hx
      rcases Nat.lt_or_ge (page % 1024) 1023 with hj | hj
      · exact h.table _ hj hpte.2
      · have h2 : page % 1024 = 1023 := by omega
        show m.mem m.dir (page % 1024) / 4096 ∉ free
        rw [h2, h.rooted.self]
        exact h.dir_notMem

/-- **The clone of an address space**: every page of a shared entry is mapped as before, every
other page is mapped with the same flags to a copy of its contents, the frames that this takes are
distinct and were free, the last entry of the new directory maps the directory itself, and nothing
of the current address space has changed. -/
theorem clone_directory_copies (m : Machine) (t : ℕ) (free : List ℕ) (h : AddressSpace m t free)
    (hroom : (owned m.mem m.dir).length ≤ free.length) :
    wp cloneDirectory (fun a m' => ∃ d, a = 4096 * d ∧
      (∀ page, page / 1024 < 1023 → Linked (page / 1024) →
        walk m'.mem d page = walk m.mem m.dir page) ∧
      (∀ page, page / 1024 < 1023 → ¬Linked (page / 1024) →
        CopyOf m.mem m'.mem (walk m.mem m.dir page) (walk m'.mem d page)) ∧
      (owned m'.mem d).Nodup ∧ (∀ f ∈ owned m'.mem d, f ∈ free) ∧
      m'.mem d 1023 / 4096 = d ∧ m'.mem d 1023 % 2 = 1 ∧ m'.dir = m.dir ∧
      ∀ page, page < 2 ^ 20 → walk m'.mem m.dir page = walk m.mem m.dir page ∧
        ∀ x, walk m.mem m.dir page = some x → m'.mem x.frame = m.mem x.frame)
      (fun _ _ => False) m := by
  obtain ⟨d, free, rfl⟩ : ∃ d free', free = d :: free' :=
    List.exists_cons_of_length_pos (by simp [owned] at hroom; omega)
  simp only [owned, List.length_cons, Nat.add_le_add_iff_right] at hroom
  refine (cloneDirectory_spec h.toSane h.source).mono ?_ fun _ _ he => by omega
  rintro a m' ⟨rfl, used, rest, rfl, hc, -⟩
  refine ⟨d, rfl, fun page hp hl => hc.walk_linked h hp hl, fun page hp hl => hc.walk_copy hp hl,
    ?_, fun f hf => ?_, ?_, ?_, hc.dir, fun page hp =>
      ⟨h.walk_eq hc.same hp, fun x hx => hc.same _ (h.frame_notMem hp hx)⟩⟩
  · rw [hc.frames]
    have := h.nodup
    rw [← List.cons_append] at this
    exact (List.nodup_append.mp this).1
  · rw [hc.frames] at hf
    rw [← List.cons_append]
    exact List.mem_append_left _ hf
  · rw [hc.self]
    omega
  · rw [hc.self]
    omega

end

/-- The memory of a machine with the directory in frame 1, the table of the reserved page in frame
2, and a table in frame 3 that maps one page, to frame 4. -/
def smallMem : Memory
  | 1, 1023 => 4096 + 3
  | 1, 1022 => 4096 * 2 + 3
  | 1, 1020 => 4096 * 3 + 3
  | 3, 0 => 4096 * 4 + 3
  | 4, w => w
  | 5, 0 => 4096 * 6
  | 6, 0 => 4096 * 7
  | 7, 0 => 4096 * 8
  | _, _ => 0

/-- The machine with this memory, and the frames 5 to 8 free. -/
def smallMachine : Machine := ⟨smallMem, 1, 4096 * 5, 4, heapStart⟩

theorem smallMem_dir {i : ℕ} (h : smallMem 1 i % 2 = 1) : i = 1023 ∨ i = 1022 ∨ i = 1020 := by
  unfold smallMem at h
  split at h <;> simp_all

theorem smallMem_table {w : ℕ} (h : smallMem 3 w % 2 = 1) : smallMem 3 w / 4096 = 4 := by
  unfold smallMem at h ⊢
  split at h <;> simp_all

theorem smallMachine_space : AddressSpace smallMachine 2 [5, 6, 7, 8] := by
  refine ⟨⟨⟨rfl, rfl, rfl, rfl, rfl, by decide⟩, ?_, by decide, by decide, by decide⟩,
    fun i hi hp =>
    ?_, fun page x hpage hx => ?_⟩
  · exact ⟨rfl, by decide, rfl, by decide, rfl, by decide, rfl, by decide, rfl⟩
  · obtain rfl | rfl | rfl := smallMem_dir hp
    · omega
    · decide
    · decide
  · unfold walk at hx
    dsimp only at hx
    split at hx
    case isFalse => simp at hx
    case isTrue hp =>
      obtain rfl := Option.some.inj hx
      obtain ⟨hp, he⟩ := hp
      change smallMem 1 _ % 2 = 1 at hp
      change smallMem (smallMem 1 _ / 4096) _ % 2 = 1 at he
      show smallMem (smallMem 1 _ / 4096) _ / 4096 ∉ _ ∧ smallMem (smallMem 1 _ / 4096) _ / 4096 ≠ 2
      obtain h | h | h := smallMem_dir hp
      · omega
      · rw [h] at he
        exact absurd he (by simp [smallMem])
      · rw [h] at he ⊢
        have h4 := smallMem_table he
        change smallMem 3 _ / 4096 = 4 at h4
        show smallMem 3 _ / 4096 ∉ _ ∧ smallMem 3 _ / 4096 ≠ 2
        rw [h4]
        decide

/-- The clone of the small machine is in the frames 5 to 8. -/
theorem clone_directory_copies_small :
    (owned smallMem 1).length = 4 ∧ ∃ a m', cloneDirectory smallMachine = .ok a m' ∧
      ∃ d, a = 4096 * d ∧
        CopyOf smallMem m'.mem (walk smallMem 1 (1020 * 1024)) (walk m'.mem d (1020 * 1024)) := by
  have hlen : (owned smallMem 1).length = 4 := by decide +kernel
  obtain ⟨a, m', hm, d, ha, -, hcopy, -⟩ :=
    (clone_directory_copies smallMachine 2 [5, 6, 7, 8] smallMachine_space
      (by show (owned smallMem 1).length ≤ 4; omega)).returns
  exact ⟨hlen, a, m', hm, d, ha, hcopy (1020 * 1024) (by decide) (by decide)⟩

end Cosiris.Mem
