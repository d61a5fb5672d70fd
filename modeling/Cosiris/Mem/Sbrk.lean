import Cosiris.Mem.KernelHeap

/-!
# Growing and shrinking a heap

`_sbrk` of `mem.c`, for the kernel heap and for the heap of a process. A heap is passed along with
its new end. `frame_alloc` never returns 0 (it stops instead), so that the test for it is left
out. -/

namespace Cosiris.Mem

open Prog

/-- `heap_t`. -/
structure Heap where
  startAddr : ℕ
  endAddr : ℕ
  maxAddr : ℕ
  supervisor : Bool

/-- The flags of the pages of a heap. -/
def Heap.flags (h : Heap) : ℕ := if h.supervisor then 3 else 7

/-- The loop of `_sbrk` that maps `n` more pages: false for `-1`. The limit is tested when the
page is mapped. -/
def growHeap : ℕ → Heap → MemM (Bool × Heap)
  | 0, h => return (true, h)
  | n + 1, h => do
    let frame ← frameAlloc
    map (h.endAddr / 4096) frame h.flags
    let h := { h with endAddr := h.endAddr + 4096 }
    if h.endAddr ≥ h.maxAddr then return (false, h)
    growHeap n h

/-- The loop of `_sbrk` that unmaps the last `n` pages: false for `-1`. -/
def shrinkHeap : ℕ → Heap → MemM (Bool × Heap)
  | 0, h => return (true, h)
  | n + 1, h => do
    let h := { h with endAddr := h.endAddr - 4096 }
    if h.endAddr < h.startAddr then return (false, h)
    let frame ← virtToPhys (h.endAddr / 4096)
    frameFree frame
    unmap (h.endAddr / 4096)
    shrinkHeap n h

/-- The number of rounds of the loops for an increment, rounded up. The increment `-2 ^ 31` is its
own negative. -/
def rounds (increment : ℤ) : ℕ :=
  if increment = -2147483648 then 4294443008 else pages increment.natAbs

/-- `_sbrk`: the old end or `none` for `-1`, and the heap. -/
def heapSbrk (increment : ℤ) (h : Heap) : MemM (Option ℕ × Heap) := do
  if increment = 0 then return (some h.endAddr, h)
  let (done, h') ←
    if increment > 0 then growHeap (rounds increment) h
    else shrinkHeap (rounds increment) h
  return (if done then some h.endAddr else none, h')

/-! ### What `map` does -/

/-- The machine with the free frame `g` as the new table `i`. -/
def Machine.newTable (m : Machine) (g i flags : ℕ) : Machine :=
  { m with mem := (m.mem.set m.dir i (4096 * g + flags)).fill g fun _ => 0,
           lastFreePage := m.mem g 0, numPages := m.numPages - 1 }

section

variable {m : Machine} {t g i page phys flags : ℕ} {free : List ℕ} {E : Halt → Machine → Prop}

/-- Mapping a page of a table that is there. -/
theorem Rooted.wp_map {Q : Unit → Machine → Prop} (h : Rooted m t 0) (hi : page / 1024 < 1024)
    (hp : m.mem m.dir (page / 1024) % 2 = 1) : wp (map page phys flags) Q E m =
      Q () (m.withMem
        (m.mem.set (m.mem m.dir (page / 1024) / 4096) (page % 1024) (phys ||| flags))) := by
  have hne : m.mem m.dir (page / 1024) ≠ 0 := by omega
  simp only [Mem.map, mapWith, wp_bind, h.wp_pdir, wp_ite, if_neg hne]
  rw [wp_vwrite (h.walk_table hi hp)]

/-- Mapping a page of a table that is missing. -/
theorem Sane.wp_map_new {Q : Unit → Machine → Prop} (h : Sane m t (g :: free))
    (hi : page / 1024 < 1022) (h0 : m.mem m.dir (page / 1024) = 0) (hodd : flags % 2 = 1)
    (hflags : flags < 4096) :
    wp (map page phys flags) Q E m =
      Q () ((m.newTable g (page / 1024) flags).withMem
        ((m.newTable g (page / 1024) flags).mem.set g (page % 1024) (phys ||| flags))) := by
  obtain ⟨hgd, hgt⟩ := h.head_ne
  have hr₁ := (h.take (Function.update (m.mem g) 0 0)).rooted
  simp only [Mem.map, mapWith, wp_bind, h.rooted.wp_pdir, wp_ite, h0, if_true, h.wp_frameAlloc]
  rw [wp_vwrite hr₁.walk_pdir, entry_eq hflags]
  have hdir₁ : (m.take g (Function.update (m.mem g) 0 0)).dir = m.dir := rfl
  have hmem : ((m.take g (Function.update (m.mem g) 0 0)).mem.set m.dir (page / 1024)
    (4096 * g + flags)).fill g (fun _ => 0) =
      (m.newTable g (page / 1024) flags).mem := by
    simp only [Machine.take, Machine.newTable, Memory.set_eq_fill, Memory.fill,
      Function.update_of_ne hgd.symm]
    rw [Function.update_comm hgd, Function.update_idem]
  have hr₂ := hr₁.setDir (v := 4096 * g + flags) hi
  have hr₃ := hr₂.fill (f := g) hgd hgt fun _ => 0
  rw [hdir₁] at hr₂ hr₃ ⊢
  generalize hm₁ : m.take g (Function.update (m.mem g) 0 0) = m₁ at *
  have hslot₂ : (m₁.withMem (m₁.mem.set m.dir (page / 1024) (4096 * g + flags))).mem
      (m₁.withMem (m₁.mem.set m.dir (page / 1024) (4096 * g + flags))).dir (page / 1024) =
        4096 * g + flags := by
    rw [Machine.withMem_dir, hdir₁]
    exact Memory.set_self
  have hentry : (4096 * g + flags) / 4096 = g := by omega
  rw [wp_memsetPage (hr₂.walk_table (by omega) (by rw [hslot₂]; omega)), hslot₂, hentry]
  simp only [Machine.withMem_mem, Machine.withMem_withMem, hmem] at hr₃ ⊢
  have hslot₃ : (m.newTable g (page / 1024) flags).mem m.dir (page / 1024) = 4096 * g + flags := by
    rw [← hmem, Memory.fill_ne hgd.symm]
    exact Memory.set_self
  have hwalk := hr₃.walk_table (i := page / 1024) (by omega)
  rw [Machine.withMem_mem, Machine.withMem_dir, hdir₁, hslot₃, hentry] at hwalk
  have hm₃ : m₁.withMem (m.newTable g (page / 1024) flags).mem =
    m.newTable g (page / 1024) flags := by
    rw [← hm₁]
    rfl
  rw [hm₃]
  exact wp_vwrite (hwalk (by omega))

end

/-! ### Heaps in memory -/

/-- A page of the range of a heap. -/
def Heap.Page (h : Heap) (page : ℕ) : Prop := h.startAddr ≤ 4096 * page ∧ 4096 * page < h.maxAddr

/-- An entry of the directory for the range of a heap. -/
def Heap.Slot (h : Heap) (i : ℕ) : Prop := ∃ page, h.Page page ∧ page / 1024 = i

/-- What a frame is used for: it is the table `inl i` of the directory, or the page `inr page`,
one of `P`. -/
inductive Uses (P : ℕ → Prop) (mem : Memory) (dir : ℕ) : ℕ ⊕ ℕ → ℕ → Prop where
  | table {i : ℕ} (hi : i < 1024) (hp : mem dir i % 2 = 1) : Uses P mem dir (.inl i)
      (mem dir i / 4096)
  | page {page : ℕ} {x : Mapping} (hp : P page) (hx : walk mem dir page = some x) :
      Uses P mem dir (.inr page) x.frame

/-- **A heap in memory**: its pages up to its end are mapped, no frame is used twice, and the free
frames and the frames `out` that have been taken from the list are not used. -/
structure Laid (h : Heap) (m : Machine) (t : ℕ) (out free : List ℕ) : Prop where
  sane : Sane m t free
  count : m.numPages = free.length
  low : 4096 ≤ h.startAddr
  high : h.maxAddr ≤ 0xFF800000
  start_aligned : h.startAddr % 4096 = 0
  end_aligned : h.endAddr % 4096 = 0
  start_le : h.startAddr ≤ h.endAddr
  end_le : h.endAddr ≤ h.maxAddr
  out_nodup : (out ++ free).Nodup
  out_ne : ∀ f ∈ out, f ≠ 0
  absent : ∀ i, h.Slot i → m.mem m.dir i % 2 = 0 → m.mem m.dir i = 0
  fresh : ∀ u f, Uses h.Page m.mem m.dir u f → f ∉ out ++ free ∧ f ≠ 0
  once : ∀ u u' f, Uses h.Page m.mem m.dir u f → Uses h.Page m.mem m.dir u' f → u = u'
  mapped : ∀ page, h.Page page → ((walk m.mem m.dir page).isSome ↔ 4096 * page < h.endAddr)

section

variable {h : Heap} {m : Machine} {t f g i page : ℕ} {out free : List ℕ} {mem mem' : Memory} {d : ℕ}
    {u : ℕ ⊕ ℕ}

theorem walk_congr (hpde : mem' d (page / 1024) = mem d (page / 1024))
    (hpte : mem d (page / 1024) % 2 = 1 →
    mem' (mem d (page / 1024) / 4096) (page % 1024) =
      mem (mem d (page / 1024) / 4096) (page % 1024)) :
    walk mem' d page = walk mem d page := by
  unfold walk
  dsimp only
  rw [hpde]
  by_cases hp : mem d (page / 1024) % 2 = 1
  · rw [hpte hp]
  · simp [hp]

theorem Laid.page_lt (hl : Laid h m t out free) (hp : h.Page page) : page / 1024 < 1022 := by
  have := hl.high
  have := hp.2
  omega

theorem Laid.slot_lt (hl : Laid h m t out free) (hi : h.Slot i) : i < 1022 := by
  obtain ⟨page, hp, rfl⟩ := hi
  exact hl.page_lt hp

theorem Laid.uses_dir (hl : Laid h m t out free) : Uses h.Page m.mem m.dir (.inl 1023) m.dir := by
  have huse := Uses.table (P := h.Page) (i := 1023) (by decide) hl.sane.rooted.self_present
  rwa [hl.sane.rooted.self] at huse

theorem Laid.uses_resv (hl : Laid h m t out free) : Uses h.Page m.mem m.dir (.inl 1022) t := by
  have huse := Uses.table (P := h.Page) (i := 1022) (by decide) hl.sane.rooted.table_present
  rwa [hl.sane.rooted.table] at huse

/-- The frame of another use is neither the directory nor the table of the reserved page. -/
theorem Laid.ne_of_uses (hl : Laid h m t out free) (hu : Uses h.Page m.mem m.dir u f)
    (h3 : u ≠ .inl 1023) (h2 : u ≠ .inl 1022) :
    f ≠ m.dir ∧ f ≠ t :=
  ⟨fun e => h3 (hl.once _ _ _ hu (e ▸ hl.uses_dir)),
    fun e => h2 (hl.once _ _ _ hu (e ▸ hl.uses_resv))⟩

/-- What a frame that is not used holds does not matter. -/
theorem walk_of_unused (hd : f ≠ d) (ht : ∀ i, i < 1024 → mem d i % 2 = 1 → mem d i / 4096 ≠ f)
    (hm : ∀ g, g ≠ f → mem' g = mem g)
    (hpage : page / 1024 < 1024) : walk mem' d page = walk mem d page :=
  walk_congr (by rw [hm d hd.symm]) fun hp => by rw [hm _ (ht _ hpage hp)]

theorem uses_of_unused (hhigh : h.maxAddr ≤ 0xFF800000) (hd : f ≠ d)
    (ht : ∀ i, i < 1024 → mem d i % 2 = 1 → mem d i / 4096 ≠ f)
    (hm : ∀ g, g ≠ f → mem' g = mem g) (hu : Uses h.Page mem' d u g) : Uses h.Page mem d u g := by
  cases hu with
  | table hi hp =>
    rw [hm d hd.symm] at hp ⊢
    exact .table hi hp
  | page hp hx =>
    have := hp.2
    rw [walk_of_unused hd ht hm (by omega)] at hx
    exact .page hp hx

theorem Laid.unused (hl : Laid h m t out free) (hf : f ∈ out ++ free) :
    f ≠ m.dir ∧ ∀ i, i < 1024 → m.mem m.dir i % 2 = 1 → m.mem m.dir i / 4096 ≠ f :=
  ⟨fun e => (hl.fresh _ _ hl.uses_dir).1 (e ▸ hf), fun _ hi hp e =>
    (hl.fresh _ _ (.table hi hp)).1 (e ▸ hf)⟩

/-- A frame that is not used is written, and moved to the list or from it. -/
theorem Laid.moved {m' : Machine} {out' free' : List ℕ} (hl : Laid h m t out free)
    (hf : f ∈ out ++ free)
    (hdir : m'.dir = m.dir) (hm : ∀ g, g ≠ f → m'.mem g = m.mem g) (hsane : Sane m' t free')
    (hcount : m'.numPages = free'.length) (hperm : (out' ++ free').Perm (out ++ free))
    (hne : ∀ f ∈ out', f ≠ 0) :
    Laid h m' t out' free' := by
  obtain ⟨hfd, hft⟩ := hl.unused hf
  have huse : ∀ {u g}, Uses h.Page m'.mem m'.dir u g → Uses h.Page m.mem m.dir u g := fun hu => by
    rw [hdir] at hu
    exact uses_of_unused hl.high hfd hft hm hu
  exact
    { sane := hsane
      count := hcount
      low := hl.low
      high := hl.high
      start_aligned := hl.start_aligned
      end_aligned := hl.end_aligned
      start_le := hl.start_le
      end_le := hl.end_le
      out_nodup := hperm.nodup_iff.mpr hl.out_nodup
      out_ne := hne
      absent := fun i hi hp => by
        rw [hdir, hm _ hfd.symm] at hp ⊢
        exact hl.absent i hi hp
      fresh := fun u g hu => by
        rw [hperm.mem_iff]
        exact hl.fresh u g (huse hu)
      once := fun u u' g hu hu' => hl.once u u' g (huse hu) (huse hu')
      mapped := fun page hp => by
        have := hl.page_lt hp
        rw [hdir, walk_of_unused hfd hft hm (by omega)]
        exact hl.mapped page hp }

/-- A frame is taken from the list. -/
theorem Laid.take (hl : Laid h m t [] (f :: free)) (c : ℕ → ℕ) :
    Laid h (m.take f c) t [f] free := by
  refine hl.moved (List.mem_cons_self ..) rfl (fun g hg => Memory.fill_ne hg) (hl.sane.take c) ?_
    (List.Perm.refl _) ?_
  · show m.numPages - 1 = _
    rw [hl.count]
    rfl
  · rintro g hg
    rw [List.mem_singleton.mp hg]
    exact hl.sane.chain.2.1

/-- A frame is given back to the list. -/
theorem Laid.give (hl : Laid h m t [f] free) : Laid h (m.give f) t [] (f :: free) := by
  have hfree : f ∉ free := (List.nodup_cons.mp hl.out_nodup).1
  have hmem : f ∈ [f] ++ free := List.mem_cons_self ..
  obtain ⟨hfd, hft⟩ := hl.unused hmem
  have ht : f ≠ t := by
    have := hft 1022 (by decide) hl.sane.rooted.table_present
    rw [hl.sane.rooted.table] at this
    exact this.symm
  exact hl.moved hmem rfl (fun g hg => Memory.set_ne hg)
    (hl.sane.give (hl.out_ne f (List.mem_singleton_self f)) hfd ht hfree)
    (congrArg (· + 1) hl.count)
      (List.Perm.refl _) (by simp)

/-- What the memory holds with a new table. -/
theorem newTable_mem (i flags : ℕ) (hg : g ≠ m.dir) : (m.newTable g i flags).mem g = (fun _ => 0) ∧
    (m.newTable g i flags).mem m.dir i = 4096 * g + flags ∧
    (∀ j, j ≠ i → (m.newTable g i flags).mem m.dir j = m.mem m.dir j) ∧
    ∀ e, e ≠ g → e ≠ m.dir → (m.newTable g i flags).mem e = m.mem e := by
  refine ⟨Memory.fill_self, ?_, fun j hj => ?_, fun e he hd => ?_⟩
  · show ((m.mem.set m.dir i (4096 * g + flags)).fill g fun _ => 0) m.dir i = _
    rw [Memory.fill_ne hg.symm, Memory.set_self]
  · show ((m.mem.set m.dir i (4096 * g + flags)).fill g fun _ => 0) m.dir j = _
    rw [Memory.fill_ne hg.symm, Memory.set_word_ne hj]
  · show ((m.mem.set m.dir i (4096 * g + flags)).fill g fun _ => 0) e = _
    rw [Memory.fill_ne he, Memory.set_ne hd]

theorem Sane.newTable {flags : ℕ} (hs : Sane m t (g :: free)) (hi : i < 1022) :
    Sane (m.newTable g i flags) t free := by
  obtain ⟨hgd, hgt⟩ := hs.head_ne
  have hr := (hs.rooted.setDir (v := 4096 * g + flags) hi).fill hgd hgt fun _ => 0
  obtain ⟨hnot, hnodup⟩ := List.nodup_cons.mp hs.nodup
  refine ⟨⟨hr.self, hr.self_present, hr.table, hr.table_present, hr.resv, hr.ne⟩,
    hs.chain.2.2.congr fun e he => ?_, hnodup, fun hm =>
      hs.dir_notMem (List.mem_cons_of_mem _ hm),
      fun hm => hs.table_notMem (List.mem_cons_of_mem _ hm)⟩
  have heg : e ≠ g := fun e' => hnot (e' ▸ he)
  have hed : e ≠ m.dir := fun e' => hs.dir_notMem (List.mem_cons_of_mem _ (e' ▸ he))
  rw [(newTable_mem i flags hgd).2.2.2 e heg hed]

/-- The first free frame becomes a table that was missing. -/
theorem Laid.newTable {flags : ℕ} (hl : Laid h m t out (g :: free)) (hi : h.Slot i)
    (h0 : m.mem m.dir i = 0)
    (hodd : flags % 2 = 1) (hflags : flags < 4096) : Laid h (m.newTable g i flags) t out free := by
  have hi' := hl.slot_lt hi
  obtain ⟨hgd, hgt⟩ := hl.unused (f := g) (List.mem_append_right _ (List.mem_cons_self ..))
  obtain ⟨hzero, hself, hwords, hother⟩ := newTable_mem i flags hgd
  have hwalk : ∀ page, h.Page page →
    walk (m.newTable g i flags).mem m.dir page = walk m.mem m.dir page := fun page hp => by
    have hlt := hl.page_lt hp
    by_cases hpi : page / 1024 = i
    · have hnone₀ : walk m.mem m.dir page = none := walk_of_absent (by rw [hpi, h0])
      have hnone : ¬(walk (m.newTable g i flags).mem m.dir page).isSome := fun hsome => by
        have hpte := (walk_isSome.mp hsome).2
        rw [hpi, hself, show (4096 * g + flags) / 4096 = g by omega, hzero] at hpte
        cases hpte
      rw [hnone₀, Option.not_isSome_iff_eq_none.mp hnone]
    · refine walk_congr (hwords _ hpi) fun hpres => ?_
      have huse := Uses.table (P := h.Page) (show page / 1024 < 1024 by omega) hpres
      rw [hother _ (hgt _ (by omega) hpres)
        (hl.ne_of_uses huse (by simp; omega) (by simp; omega)).1]
  have huse : ∀ {u e}, Uses h.Page (m.newTable g i flags).mem m.dir u e →
      Uses h.Page m.mem m.dir u e ∧ e ≠ g ∨ u = .inl i ∧ e = g := fun {u e} hu => by
    have hold : Uses h.Page m.mem m.dir u e → e ≠ g := fun hu' e' =>
      (hl.fresh u e hu').1 (e' ▸ List.mem_append_right _ (List.mem_cons_self ..))
    cases hu with
    | @table j hj hp =>
      by_cases hji : j = i
      · subst hji
        rw [hself]
        exact .inr ⟨rfl, by omega⟩
      · rw [hwords j hji] at hp hold ⊢
        exact .inl ⟨.table hj hp, hold (.table hj hp)⟩
    | page hp hx =>
      rw [hwalk _ hp] at hx
      exact .inl ⟨.page hp hx, hold (.page hp hx)⟩
  have hnd := hl.out_nodup
  rw [List.nodup_middle, List.nodup_cons] at hnd
  exact
    { sane := hl.sane.newTable hi'
      count := by
        show m.numPages - 1 = _
        rw [hl.count]
        rfl
      low := hl.low
      high := hl.high
      start_aligned := hl.start_aligned
      end_aligned := hl.end_aligned
      start_le := hl.start_le
      end_le := hl.end_le
      out_nodup := hnd.2
      out_ne := hl.out_ne
      absent := fun j hj hp => by
        change (m.newTable g i flags).mem m.dir j % 2 = 0 at hp
        show (m.newTable g i flags).mem m.dir j = 0
        by_cases hji : j = i
        · subst hji
          rw [hself] at hp
          omega
        · rw [hwords j hji] at hp ⊢
          exact hl.absent j hj hp
      fresh := fun u e hu => by
        rcases huse hu with ⟨hu', -⟩ | ⟨-, rfl⟩
        · have := hl.fresh u e hu'
          simp only [List.mem_append, List.mem_cons, not_or] at this ⊢
          exact ⟨⟨this.1.1, this.1.2.2⟩, this.2⟩
        · exact ⟨hnd.1, hl.sane.chain.2.1⟩
      once := fun u u' e hu hu' => by
        rcases huse hu with ⟨hu, hne⟩ | ⟨rfl, rfl⟩ <;> rcases huse hu' with ⟨hu', hne'⟩ | ⟨rfl, he⟩
        · exact hl.once u u' e hu hu'
        · exact absurd he hne
        · exact absurd rfl hne'
        · rfl
      mapped := fun page hp => by
        show (walk (m.newTable g i flags).mem m.dir page).isSome ↔ _
        rw [hwalk page hp]
        exact hl.mapped page hp }

/-- Writing the entry of a page changes no other page. -/
theorem Laid.walk_set {page' v : ℕ} (hl : Laid h m t out free) (hp : h.Page page)
    (hpres : m.mem m.dir (page / 1024) % 2 = 1)
    (hne : page' ≠ page) (hlt : page' / 1024 < 1024) :
    walk (m.mem.set (m.mem m.dir (page / 1024) / 4096) (page % 1024) v) m.dir page' =
      walk m.mem m.dir page' := by
  have hi := hl.page_lt hp
  have huse := Uses.table (P := h.Page) (show page / 1024 < 1024 by omega) hpres
  have hd := (hl.ne_of_uses huse (by simp; omega) (by simp; omega)).1
  refine walk_congr (by rw [Memory.set_ne hd.symm]) fun hp' => ?_
  by_cases hT : m.mem m.dir (page' / 1024) / 4096 = m.mem m.dir (page / 1024) / 4096
  · have heq : page' / 1024 = page / 1024 := Sum.inl.inj (hl.once _ _ _ (hT ▸ .table hlt hp') huse)
    exact Memory.set_word_ne (by omega)
  · rw [Memory.set_ne hT]

theorem Laid.walk_set_self {v : ℕ} (hl : Laid h m t out free) (hp : h.Page page)
    (hpres : m.mem m.dir (page / 1024) % 2 = 1) :
    walk (m.mem.set (m.mem m.dir (page / 1024) / 4096) (page % 1024) v) m.dir page =
      if v % 2 = 1 then some ⟨m.mem m.dir (page / 1024) % 4096, v % 4096, v / 4096⟩ else none := by
  have hi := hl.page_lt hp
  have huse := Uses.table (P := h.Page) (show page / 1024 < 1024 by omega) hpres
  have hd := (hl.ne_of_uses huse (by simp; omega) (by simp; omega)).1
  unfold walk
  simp [Memory.set_ne hd.symm, hpres]

/-- The entry of a page at the end of the heap is written: the page is mapped to a frame that was
taken, or unmapped. -/
theorem Laid.write {h' : Heap} {out' : List ℕ} {v : ℕ} (hl : Laid h m t out free) (hp : h.Page page)
    (hpres : m.mem m.dir (page / 1024) % 2 = 1) (hstart : h'.startAddr = h.startAddr)
    (hmax : h'.maxAddr = h.maxAddr)
    (hal : h'.endAddr % 4096 = 0) (hle : h.startAddr ≤ h'.endAddr) (hle' : h'.endAddr ≤ h.maxAddr)
    (hnd : (out' ++ free).Nodup) (hne : ∀ f ∈ out', f ≠ 0)
    (hfresh : ∀ u f, u ≠ .inr page → Uses h.Page m.mem m.dir u f → f ∉ out')
    (hv : v % 2 = 1 → v / 4096 ∈ out ∧ v / 4096 ∉ out' ++ free)
    (hmapped : ∀ page', h.Page page' →
      (page' ≠ page ∧ 4096 * page' < h.endAddr ∨ page' = page ∧ v % 2 = 1 ↔
        4096 * page' < h'.endAddr)) :
    Laid h' (m.withMem (m.mem.set (m.mem m.dir (page / 1024) / 4096) (page % 1024) v)) t
      out' free := by
  have hi := hl.page_lt hp
  have hT := Uses.table (P := h.Page) (show page / 1024 < 1024 by omega) hpres
  obtain ⟨hTd, hTt⟩ := hl.ne_of_uses hT (by simp; omega) (by simp; omega)
  have hTfree : m.mem m.dir (page / 1024) / 4096 ∉ free := fun hm =>
    (hl.fresh _ _ hT).1 (List.mem_append_right _ hm)
  have hdir : m.mem.set (m.mem m.dir (page / 1024) / 4096) (page % 1024) v m.dir = m.mem m.dir :=
    Memory.set_ne hTd.symm
  have hpages : ∀ page', h'.Page page' ↔ h.Page page' := fun page' => by
    unfold Heap.Page
    rw [hstart, hmax]
  have huse : ∀ {u e},
    Uses h'.Page (m.mem.set (m.mem m.dir (page / 1024) / 4096) (page % 1024) v) m.dir u e →
      u ≠ .inr page ∧ Uses h.Page m.mem m.dir u e ∨ u = .inr page ∧ v % 2 = 1 ∧
        e = v / 4096 := fun {u e} hu => by
    cases hu with
    | table hj hp' =>
      rw [hdir] at hp' ⊢
      exact .inl ⟨by simp, .table hj hp'⟩
    | @page page' x hp' hx =>
      rw [hpages] at hp'
      have := hl.page_lt hp'
      by_cases he : page' = page
      · subst he
        rw [hl.walk_set_self hp hpres] at hx
        split at hx
        case isTrue hodd =>
          obtain rfl := Option.some.inj hx
          exact .inr ⟨rfl, hodd, rfl⟩
        case isFalse => cases hx
      · rw [hl.walk_set hp hpres he (by omega)] at hx
        exact .inl ⟨by simpa using he, .page hp' hx⟩
  exact
    { sane := hl.sane.fill hTd hTt hTfree _
      count := hl.count
      low := by
        rw [hstart]
        exact hl.low
      high := by
        rw [hmax]
        exact hl.high
      start_aligned := by
        rw [hstart]
        exact hl.start_aligned
      end_aligned := hal
      start_le := by rwa [hstart]
      end_le := by rwa [hmax]
      out_nodup := hnd
      out_ne := hne
      absent := fun i ⟨page', hp', hi'⟩ hpres' => by
        change m.mem.set _ _ v m.dir i % 2 = 0 at hpres'
        show m.mem.set _ _ v m.dir i = 0
        rw [hdir] at hpres' ⊢
        exact hl.absent i ⟨page', (hpages page').mp hp', hi'⟩ hpres'
      fresh := fun u e hu => by
        rcases huse hu with ⟨hu, hu'⟩ | ⟨-, hodd, rfl⟩
        · obtain ⟨hmem, h0⟩ := hl.fresh u e hu'
          refine ⟨fun hm => ?_, h0⟩
          rcases List.mem_append.mp hm with hm | hm
          · exact hfresh u e hu hu' hm
          · exact hmem (List.mem_append_right _ hm)
        · exact ⟨(hv hodd).2, hl.out_ne _ (hv hodd).1⟩
      once := fun u u' e hu hu' => by
        have hold : ∀ u, Uses h.Page m.mem m.dir u (v / 4096) → v % 2 = 1 → False :=
          fun u hu hodd => (hl.fresh u _ hu).1 (List.mem_append_left _ (hv hodd).1)
        rcases huse hu with ⟨-, hu⟩ | ⟨rfl, hodd, rfl⟩
        · rcases huse hu' with ⟨-, hu'⟩ | ⟨rfl, hodd, rfl⟩
          · exact hl.once u u' e hu hu'
          · exact (hold u hu hodd).elim
        · rcases huse hu' with ⟨-, hu'⟩ | ⟨rfl, -, -⟩
          · exact (hold u' hu' hodd).elim
          · rfl
      mapped := fun page' hp' => by
        rw [hpages] at hp'
        have := hl.page_lt hp'
        rw [← hmapped page' hp', ← hl.mapped page' hp']
        show (walk (m.mem.set _ _ v) m.dir page').isSome ↔ _
        by_cases he : page' = page
        · subst he
          rw [hl.walk_set_self hp hpres]
          split <;> simp_all
        · rw [hl.walk_set hp hpres he (by omega)]
          simp [he] }

/-- A page is mapped at the end of the heap, to the frame that was taken. -/
theorem Laid.put {flags : ℕ} (hl : Laid h m t [f] free) (hlt : h.endAddr + 4096 ≤ h.maxAddr)
    (hpage : 4096 * page = h.endAddr)
    (hpres : m.mem m.dir (page / 1024) % 2 = 1) (hodd : flags % 2 = 1) (hflags : flags < 4096) :
    Laid { h with endAddr := h.endAddr + 4096 }
      (m.withMem (m.mem.set (m.mem m.dir (page / 1024) / 4096) (page % 1024) (4096 * f + flags))) t
      [] free := by
  have hstart := hl.start_le
  have hal := hl.end_aligned
  have hv : (4096 * f + flags) / 4096 = f := by omega
  refine hl.write ⟨by omega, by omega⟩ hpres rfl rfl (by show (_ + 4096) % 4096 = 0; omega)
    (by show _ ≤ _ + 4096; omega)
    (by show _ + 4096 ≤ _; omega) (List.nodup_cons.mp hl.out_nodup).2 (by simp) (by simp)
      (fun _ => ?_) fun page' hp' => ?_
  · rw [hv]
    exact ⟨List.mem_singleton_self f, (List.nodup_cons.mp hl.out_nodup).1⟩
  · show _ ↔ 4096 * page' < h.endAddr + 4096
    omega

/-- The last page of the heap is unmapped; its frame is not yet free. -/
theorem Laid.clear {x : Mapping} (hl : Laid h m t [] free) (hlt : h.startAddr < h.endAddr)
    (hpage : 4096 * page + 4096 = h.endAddr)
    (hx : walk m.mem m.dir page = some x) : Laid { h with endAddr := h.endAddr - 4096 }
      (m.withMem (m.mem.set (m.mem m.dir (page / 1024) / 4096) (page % 1024) 0)) t
      [x.frame] free := by
  have hend := hl.end_le
  have hal := hl.end_aligned
  have hsal := hl.start_aligned
  have hp : h.Page page := ⟨by omega, by omega⟩
  have hpres : m.mem m.dir (page / 1024) % 2 = 1 := (walk_isSome.mp (by rw [hx]; rfl)).1
  have hframe := Uses.page hp hx
  refine hl.write hp hpres rfl rfl (by show (_ - 4096) % 4096 = 0; omega)
    (by show _ ≤ _ - 4096; omega)
    (by show _ - 4096 ≤ _; omega)
      (List.nodup_cons.mpr ⟨(hl.fresh _ _ hframe).1, hl.out_nodup⟩) ?_ ?_
      (by omega)
    fun page' hp' => ?_
  · intro f hf
    rw [List.mem_singleton.mp hf]
    exact (hl.fresh _ _ hframe).2
  · intro u f hu hu' hf
    rw [List.mem_singleton.mp hf] at hu'
    exact hu (hl.once _ _ _ hu' hframe)
  · show _ ↔ 4096 * page' < h.endAddr - 4096
    omega

/-! ### One page -/

/-- The translations of all pages but one, and the directory, are as before. -/
structure SameBut (m m' : Machine) (P : ℕ → Prop) : Prop where
  dir : m'.mem m.dir = m.mem m.dir
  walk : ∀ page, page < 1048576 → ¬P page → walk m'.mem m.dir page = walk m.mem m.dir page

theorem Heap.flags_odd (h : Heap) : h.flags % 2 = 1 ∧ h.flags < 4096 := by
  unfold Heap.flags
  split <;> decide

/-- **A page more**: the heap has grown by it, unless no frame is left. When the table of the page
was there, one frame is gone and nothing else has changed. -/
theorem Laid.growPage (hl : Laid h m t [] free) (hlt : h.endAddr + 4096 ≤ h.maxAddr) :
    wp (do let frame ← frameAlloc; map (h.endAddr / 4096) frame h.flags)
      (fun _ m' => ∃ free', Laid { h with endAddr := h.endAddr + 4096 } m' t [] free' ∧
        m'.dir = m.dir ∧
        (m.mem m.dir (h.endAddr / 4096 / 1024) ≠ 0 → free.length = free'.length + 1 ∧
          SameBut m m' (· = h.endAddr / 4096)))
      (fun e _ => e = outOfFrames) m := by
  have hal := hl.end_aligned
  have hstart := hl.start_le
  have hpage : 4096 * (h.endAddr / 4096) = h.endAddr := by omega
  generalize h.endAddr / 4096 = page at *
  have hp : h.Page page := ⟨by omega, by omega⟩
  have hi := hl.page_lt hp
  obtain ⟨hodd, hflags⟩ := h.flags_odd
  rw [wp_bind]
  cases free with
  | nil => rw [hl.sane.wp_frameAlloc_nil]
  | cons f free =>
    rw [hl.sane.wp_frameAlloc]
    have hl₁ := hl.take (Function.update (m.mem f) 0 0)
    obtain ⟨hfd, hft⟩ := hl.unused (f := f) (List.mem_cons_self ..)
    have hrow : (m.take f (Function.update (m.mem f) 0 0)).mem m.dir = m.mem m.dir :=
      Memory.fill_ne hfd.symm
    have hdir₁ : (m.take f (Function.update (m.mem f) 0 0)).dir = m.dir := rfl
    have hwalk₁ : ∀ page, page < 1048576 →
      walk (m.take f (Function.update (m.mem f) 0 0)).mem m.dir page = walk m.mem m.dir page :=
      fun page hlt => walk_of_unused hfd hft (fun g hg => Memory.fill_ne hg) (by omega)
    generalize m.take f (Function.update (m.mem f) 0 0) = m₁ at *
    by_cases h0 : m₁.mem m₁.dir (page / 1024) = 0
    · have hnot : ¬m.mem m.dir (page / 1024) ≠ 0 := by
        rw [← hrow, ← hdir₁]
        exact not_not.mpr h0
      cases free with
      | nil =>
        simp only [Mem.map, mapWith, wp_bind, hl₁.sane.rooted.wp_pdir, h0, wp_ite, if_true]
        rw [hl₁.sane.wp_frameAlloc_nil]
      | cons g free =>
        rw [hl₁.sane.wp_map_new hi h0 hodd hflags, entry_eq hflags]
        have hl₂ := hl₁.newTable ⟨page, hp, rfl⟩ h0 hodd hflags
        have hslot := (newTable_mem (page / 1024) h.flags hl₁.sane.head_ne.1).2.1
        have hT : (4096 * g + h.flags) / 4096 = g := by omega
        have hput := hl₂.put hlt hpage (by
          change (m₁.newTable g (page / 1024) h.flags).mem m₁.dir _ % 2 = 1
          rw [hslot]
          omega) hodd hflags
        change Laid _
          (Machine.withMem _
            (Memory.set _ ((m₁.newTable g (page / 1024) h.flags).mem m₁.dir _ / 4096) _ _)) _ _
              _ at hput
        rw [hslot, hT] at hput
        exact ⟨free, hput, hdir₁, fun hne => absurd hne hnot⟩
    · have hpres : m₁.mem m₁.dir (page / 1024) % 2 = 1 := by
        have := hl₁.absent _ ⟨page, hp, rfl⟩
        omega
      rw [hl₁.sane.rooted.wp_map (by omega) hpres, entry_eq hflags]
      have hT := Uses.table (P := h.Page) (show page / 1024 < 1024 by omega) hpres
      have hTd := (hl₁.ne_of_uses hT (by simp; omega) (by simp; omega)).1
      refine ⟨free, hl₁.put hlt hpage hpres hodd hflags,
        hdir₁, fun _ => ⟨rfl, ?_, fun page' hlt' hne => ?_⟩⟩
      · rw [hdir₁] at hTd
        show m₁.mem.set _ _ _ m.dir = _
        rw [hdir₁, Memory.set_ne hTd.symm, hrow]
      · have hset := hl₁.walk_set (v := 4096 * f + h.flags) hp hpres hne (by omega)
        rw [hdir₁] at hset
        show walk (m₁.mem.set _ _ _) m.dir page' = _
        rw [hdir₁, hset, hwalk₁ page' hlt']

theorem wp_virtToPhys {Q : ℕ → Machine → Prop} {E : Halt → Machine → Prop} {x : Mapping}
    (hr : Rooted m t 0)
    (hlt : page / 1024 < 1024) (hx : walk m.mem m.dir page = some x) :
    wp (virtToPhys page) Q E m = Q (4096 * x.frame) m := by
  obtain ⟨hpde, hpte⟩ := walk_isSome.mp (show (walk m.mem m.dir page).isSome by rw [hx]; rfl)
  have hframe : x.frame = m.mem (m.mem m.dir (page / 1024) / 4096) (page % 1024) / 4096 := by
    unfold walk at hx
    dsimp only at hx
    rw [if_pos ⟨hpde, hpte⟩] at hx
    rw [← Option.some.inj hx]
  have hne : ¬m.mem m.dir (page / 1024) % 2 = 0 := by omega
  simp only [virtToPhys, isMapped, wp_bind, hr.wp_pdir, wp_ite, if_neg hne,
    wp_vread (hr.walk_table hlt hpde), wp_pure, hpte, decide_true, Bool.not_true,
    Bool.false_eq_true,
      if_false]
  rw [hframe, Nat.mul_comm]

/-- **A page less**: its frame is free again, and nothing else has changed. -/
theorem Laid.shrinkPage {E : Halt → Machine → Prop} (hl : Laid h m t [] free)
    (hlt : h.startAddr < h.endAddr)
    (hpage : 4096 * page + 4096 = h.endAddr) :
    wp (do let frame ← virtToPhys page; frameFree frame; unmap page)
      (fun _ m' => ∃ f, Laid { h with endAddr := h.endAddr - 4096 } m' t [] (f :: free) ∧
        m'.dir = m.dir ∧
        SameBut m m' (· = page)) E m := by
  have hend := hl.end_le
  have hsal := hl.start_aligned
  have hal := hl.end_aligned
  have hp : h.Page page := ⟨by omega, by omega⟩
  have hi := hl.page_lt hp
  obtain ⟨x, hx⟩ := Option.isSome_iff_exists.mp ((hl.mapped page hp).mpr (by omega))
  have hpres : m.mem m.dir (page / 1024) % 2 = 1 := (walk_isSome.mp (by rw [hx]; rfl)).1
  have hT := Uses.table (P := h.Page) (show page / 1024 < 1024 by omega) hpres
  have hframe := Uses.page hp hx
  obtain ⟨hTd, hTt⟩ := hl.ne_of_uses hT (by simp; omega) (by simp; omega)
  obtain ⟨hfd, hft⟩ := hl.ne_of_uses hframe (by simp) (by simp)
  have hfT : x.frame ≠ m.mem m.dir (page / 1024) / 4096 := fun e => by
    cases hl.once _ _ _ hframe (e ▸ hT)
  have hcleared := hl.clear hlt hpage hx
  obtain ⟨hfd', hft'⟩ := hcleared.unused (f := x.frame) (List.mem_cons_self ..)
  have hgiven := hcleared.give
  have hrow : (m.give x.frame).mem m.dir = m.mem m.dir := Memory.set_ne hfd.symm
  -- The frame is given back before the page is unmapped; the two writes are to different frames.
  have hcomm :
    (m.give x.frame).withMem
      ((m.give x.frame).mem.set (m.mem m.dir (page / 1024) / 4096) (page % 1024) 0) =
      (m.withMem (m.mem.set (m.mem m.dir (page / 1024) / 4096) (page % 1024) 0)).give x.frame := by
    simp only [Machine.give, Machine.withMem, Memory.set, Function.update_of_ne hfT,
      Function.update_of_ne hfT.symm]
    rw [Function.update_comm hfT]
  have hr := (hl.sane.give (hl.fresh _ _ hframe).2 hfd hft (hl.fresh _ _ hframe).1).rooted
  simp only [wp_bind, wp_virtToPhys hl.sane.rooted (show page / 1024 < 1024 by omega) hx,
    hl.sane.wp_frameFree hfd hft, unmap]
  rw [hr.wp_map (by omega) (by show (m.give x.frame).mem m.dir _ % 2 = 1; rw [hrow]; exact hpres)]
  have hslot : (m.give x.frame).mem (m.give x.frame).dir (page / 1024) =
    m.mem m.dir (page / 1024) :=
    congrFun hrow _
  rw [hslot, Nat.or_zero, hcomm]
  refine ⟨x.frame, hgiven, rfl, ?_, fun page' hlt' hne => ?_⟩
  · show (m.mem.set _ _ 0).set x.frame _ _ m.dir = _
    rw [Memory.set_ne hfd.symm, Memory.set_ne hTd.symm]
  · have hset := hl.walk_set (v := 0) hp hpres hne (by omega)
    rw [← hset]
    exact walk_of_unused hfd' hft' (fun g hg => Memory.set_ne hg) (by omega)

theorem SameBut.trans {m' m'' : Machine} {P Q : ℕ → Prop} (h₁ : SameBut m m' P)
    (hdir : m'.dir = m.dir) (h₂ : SameBut m' m'' Q) :
    SameBut m m'' fun page => P page ∨ Q page where
  dir := by
    have := h₂.dir
    rwa [hdir, h₁.dir] at this
  walk page hlt hne := by
    have := h₂.walk page hlt fun hq => hne (.inr hq)
    rw [hdir] at this
    rw [this, h₁.walk page hlt fun hp => hne (.inl hp)]

theorem SameBut.mono {m' : Machine} {P Q : ℕ → Prop} (hs : SameBut m m' P)
    (hPQ : ∀ page, P page → Q page) : SameBut m m' Q :=
  ⟨hs.dir, fun page hlt hne => hs.walk page hlt fun hp => hne (hPQ page hp)⟩

/-! ### The loops -/

/-- The tables for the next `n` pages are there. -/
def Heap.Backed (h : Heap) (m : Machine) (n : ℕ) : Prop :=
  ∀ page, h.endAddr ≤ 4096 * page → 4096 * page < h.endAddr + 4096 * n →
    m.mem m.dir (page / 1024) ≠ 0

/-- The heap with another end. -/
def Heap.to (h : Heap) (endAddr : ℕ) : Heap := { h with endAddr := endAddr }

theorem Laid.growHeap (n : ℕ) (hl : Laid h m t [] free)
    (hfit : n ≠ 0 → h.endAddr + 4096 * n < h.maxAddr) :
    wp (growHeap n h) (fun r m' => r = (true, h.to (h.endAddr + 4096 * n)) ∧
      ∃ free', Laid (h.to (h.endAddr + 4096 * n)) m' t [] free' ∧ m'.dir = m.dir ∧
        (h.Backed m n → free.length = free'.length + n ∧
          SameBut m m' fun page => h.endAddr ≤ 4096 * page ∧ 4096 * page < h.endAddr + 4096 * n))
      (fun e _ => e = outOfFrames) m := by
  induction n generalizing h m free with
  | zero => exact ⟨rfl, free, hl, rfl, fun _ => ⟨rfl, rfl, fun _ _ _ => rfl⟩⟩
  | succ n ih =>
    have hlt := hfit (Nat.succ_ne_zero n)
    have hal := hl.end_aligned
    have hpage := hl.growPage (by omega)
    rw [wp_bind] at hpage
    simp only [Mem.growHeap, wp_bind]
    refine hpage.mono (fun frame m₁ hm₁ => hm₁.mono (fun _ m₂ => ?_) fun _ _ => id) fun _ _ => id
    rintro ⟨free₂, hl₂, hdir₂, hsame₂⟩
    have hnot : ¬h.endAddr + 4096 ≥ h.maxAddr := by omega
    rw [if_neg hnot]
    refine (ih hl₂ fun _ => ?_).mono (fun r m' ⟨hr, free', hl', hdir', hsame'⟩ => ?_) fun _ _ => id
    · show h.endAddr + 4096 + 4096 * n < h.maxAddr
      omega
    have hto : Heap.to { h with endAddr := h.endAddr + 4096 } (h.endAddr + 4096 + 4096 * n) =
        h.to (h.endAddr + 4096 * (n + 1)) := by
      unfold Heap.to
      simp only [Heap.mk.injEq, true_and, and_true]
      omega
    simp only [hto] at hr hl'
    refine ⟨hr, free', hl', hdir'.trans hdir₂, fun hb => ?_⟩
    obtain ⟨hlen₂, hs₂⟩ := hsame₂ (hb _ (by omega) (by omega))
    have hb₂ : Heap.Backed { h with endAddr := h.endAddr + 4096 } m₂ n := fun page h1 h2 => by
      rw [hdir₂, hs₂.dir]
      change h.endAddr + 4096 ≤ _ at h1
      change _ < h.endAddr + 4096 + _ at h2
      exact hb page (by omega) (by omega)
    obtain ⟨hlen', hs'⟩ := hsame' hb₂
    refine ⟨by omega, (hs₂.trans hdir₂ hs').mono fun page hpg => ?_⟩
    change page = _ ∨ h.endAddr + 4096 ≤ _ ∧ _ < h.endAddr + 4096 + _ at hpg
    omega

theorem Laid.shrinkHeap {E : Halt → Machine → Prop} (n : ℕ) (hl : Laid h m t [] free)
    (hfit : h.startAddr + 4096 * n ≤ h.endAddr) :
    wp (shrinkHeap n h) (fun r m' => r = (true, h.to (h.endAddr - 4096 * n)) ∧
      ∃ free', Laid (h.to (h.endAddr - 4096 * n)) m' t [] free' ∧ m'.dir = m.dir ∧
        free'.length = free.length + n ∧
        SameBut m m' fun page => h.endAddr - 4096 * n ≤ 4096 * page ∧
          4096 * page < h.endAddr) E m := by
  induction n generalizing h m free with
  | zero => exact ⟨rfl, free, hl, rfl, rfl, rfl, fun _ _ _ => rfl⟩
  | succ n ih =>
    have hal := hl.end_aligned
    have hlow := hl.low
    have hpage :=
      hl.shrinkPage (E := E) (by omega) (show 4096 * ((h.endAddr - 4096) / 4096) + 4096 =
        h.endAddr by omega)
    rw [wp_bind] at hpage
    have hnot : ¬h.endAddr - 4096 < h.startAddr := by omega
    simp only [Mem.shrinkHeap, wp_bind, if_neg hnot]
    refine hpage.mono (fun frame m₁ hm₁ => ?_) fun _ _ => id
    rw [wp_bind] at hm₁
    refine hm₁.mono (fun _ m₁' hm₁' => hm₁'.mono (fun _ m₂ => ?_) fun _ _ => id) fun _ _ => id
    rintro ⟨f, hl₂, hdir₂, hs₂⟩
    refine (ih hl₂ ?_).mono (fun r m' ⟨hr, free', hl', hdir', hlen', hs'⟩ => ?_) fun _ _ => id
    · show h.startAddr + 4096 * n ≤ h.endAddr - 4096
      omega
    have hto : Heap.to { h with endAddr := h.endAddr - 4096 } (h.endAddr - 4096 - 4096 * n) =
        h.to (h.endAddr - 4096 * (n + 1)) := by
      unfold Heap.to
      simp only [Heap.mk.injEq, true_and, and_true]
      omega
    simp only [hto] at hr hl'
    refine ⟨hr, free', hl', hdir'.trans hdir₂, ?_, (hs₂.trans hdir₂ hs').mono fun page hpg => ?_⟩
    · rw [hlen', List.length_cons]
      omega
    · change page = _ ∨ h.endAddr - 4096 - _ ≤ _ ∧ _ < h.endAddr - 4096 at hpg
      omega

/-! ### Calls -/

/-- The call stays below the limit of the heap, and above its start. -/
def Heap.Fits (h : Heap) (increment : ℤ) : Prop :=
  (0 < increment → h.endAddr + 4096 * rounds increment < h.maxAddr) ∧
    (increment < 0 → h.startAddr + 4096 * rounds increment ≤ h.endAddr)

/-- The end of the heap, the mappings and the number of free frames are the same. -/
structure Unchanged (h : Heap) (m : Machine) (h' : Heap) (m' : Machine) : Prop where
  endAddr : h'.endAddr = h.endAddr
  walk : ∀ page, page < 1048576 → walk m'.mem m'.dir page = walk m.mem m.dir page
  numPages : m'.numPages = m.numPages

/-- The heap ends in its range, and its pages up to the end are mapped, to different frames. -/
structure Heap.Exact (h : Heap) (m : Machine) : Prop where
  start_le : h.startAddr ≤ h.endAddr
  end_le : h.endAddr ≤ h.maxAddr
  mapped : ∀ page, h.Page page → ((walk m.mem m.dir page).isSome ↔ 4096 * page < h.endAddr)
  distinct : ∀ page page' x x', h.Page page → h.Page page' → walk m.mem m.dir page = some x →
    walk m.mem m.dir page' = some x' → x.frame = x'.frame → page = page'

theorem Laid.exact (hl : Laid h m t out free) : h.Exact m where
  start_le := hl.start_le
  end_le := hl.end_le
  mapped := hl.mapped
  distinct _ _ _ _ hp hp' hx hx' he :=
    Sum.inr.inj (hl.once _ _ _ (.page hp hx) (he ▸ .page hp' hx'))

/-- **`_sbrk`** within the limits returns the old end, unless no frame is left. -/
theorem Laid.heapSbrk {increment : ℤ} (hl : Laid h m t [] free) (hfit : h.Fits increment) :
    wp (heapSbrk increment h) (fun r m' => r.1 = some h.endAddr ∧ ∃ free', Laid r.2 m' t [] free')
      (fun e _ => e = outOfFrames) m := by
  unfold Mem.heapSbrk
  split_ifs with h0 hpos
  · exact ⟨rfl, free, hl⟩
  · rw [wp_bind]
    refine (hl.growHeap _ fun _ => hfit.1 hpos).mono ?_ fun _ _ => id
    rintro _ m' ⟨rfl, free', hl', -⟩
    exact ⟨rfl, free', hl'⟩
  · rw [wp_bind]
    refine (hl.shrinkHeap _ (hfit.2 (by omega))).mono ?_ fun _ _ => id
    rintro _ m' ⟨rfl, free', hl', -⟩
    exact ⟨rfl, free', hl'⟩

theorem wp_true {α : Type} (p : MemM α) : wp p (fun _ _ => True) (fun _ _ => True) m := by
  unfold wp
  split <;> trivial

theorem growHeap_end (n : ℕ) : wp (growHeap n h) (fun r _ =>
    (r.1 = true → n ≠ 0 → h.endAddr + 4096 * n < h.maxAddr) ∧
      (r.1 = false → h.endAddr < r.2.endAddr))
      (fun _ _ => True) m := by
  induction n generalizing h m with
  | zero => exact ⟨fun _ hn => absurd rfl hn, fun hf => Bool.noConfusion hf⟩
  | succ n ih =>
    simp only [Mem.growHeap, wp_bind]
    refine (wp_true _).mono
      (fun _ _ _ => (wp_true _).mono (fun _ m₂ _ => ?_) fun _ _ => id) fun _ _ => id
    split_ifs with hmax
    · exact ⟨fun hf => Bool.noConfusion hf, fun _ => by show _ < _ + 4096; omega⟩
    · refine ih.mono (fun r m' ⟨hok, hfail⟩ => ⟨fun hr _ => ?_, fun hr => ?_⟩) fun _ _ => id
      · by_cases hn : n = 0
        · subst hn
          omega
        · have := hok hr hn
          change h.endAddr + 4096 + _ < h.maxAddr at this
          omega
      · have := hfail hr
        change h.endAddr + 4096 < _ at this
        omega

theorem shrinkHeap_end (n : ℕ) (hlow : 4096 ≤ h.startAddr) (hle : h.startAddr ≤ h.endAddr) :
    wp (shrinkHeap n h) (fun r _ =>
    (r.1 = true → h.startAddr + 4096 * n ≤ h.endAddr) ∧ (r.1 = false → r.2.endAddr < h.endAddr))
      (fun _ _ => True) m := by
  induction n generalizing h m with
  | zero => exact ⟨fun _ => hle, fun hf => Bool.noConfusion hf⟩
  | succ n ih =>
    simp only [Mem.shrinkHeap]
    -- The new end is kept abstract, as the difference must not be unfolded.
    obtain ⟨e, he⟩ : ∃ e, e = h.endAddr - 4096 := ⟨_, rfl⟩
    rw [← he]
    split_ifs with hlt
    · exact ⟨fun hf => Bool.noConfusion hf, fun _ => by show e < _; omega⟩
    · simp only [wp_bind]
      refine (wp_true _).mono
        (fun _ _ _ =>
          (wp_true _).mono (fun _ _ _ => (wp_true _).mono (fun _ m₂ _ => ?_) fun _ _ => id)
        fun _ _ => id) fun _ _ => id
      refine (ih (h := { h with endAddr := e }) hlow (Nat.le_of_not_lt hlt)).mono ?_ fun _ _ => id
      rintro r m' ⟨hok, hfail⟩
      refine ⟨fun hr => ?_, fun hr => ?_⟩
      · have hend : e + 4096 = h.endAddr := by omega
        calc h.startAddr + 4096 * (n + 1)
            = h.startAddr + 4096 * n + 4096 := by rw [Nat.mul_succ, Nat.add_assoc]
          _ ≤ e + 4096 := Nat.add_le_add_right (hok hr) 4096
          _ = h.endAddr := hend
      · have : r.2.endAddr < e := hfail hr
        omega

/-- A call that does not fit fails, and has changed the end of the heap. -/
theorem Laid.heapSbrk_fails {increment : ℤ} (hl : Laid h m t out free) (hfit : ¬h.Fits increment) :
    wp (Mem.heapSbrk increment h) (fun r _ => r.1 = none ∧ r.2.endAddr ≠ h.endAddr)
      (fun _ _ => True) m := by
  unfold Mem.heapSbrk
  split_ifs with h0 hpos
  · subst h0
    exact absurd ⟨fun h => absurd h (by decide), fun h => absurd h (by decide)⟩ hfit
  · have hrounds : rounds increment ≠ 0 := by
      unfold rounds pages
      split_ifs <;> omega
    rw [wp_bind]
    refine (growHeap_end (h := h) _).mono ?_ fun _ _ => id
    rintro ⟨done, h'⟩ m' ⟨hok, hfail⟩
    cases done with
    | true => exact absurd ⟨fun _ => hok rfl hrounds, fun h => absurd h (by omega)⟩ hfit
    | false => exact ⟨rfl, Nat.ne_of_gt (hfail rfl)⟩
  · rw [wp_bind]
    refine (shrinkHeap_end _ hl.low hl.start_le).mono ?_ fun _ _ => id
    rintro ⟨done, h'⟩ m' ⟨hok, hfail⟩
    cases done with
    | true => exact absurd ⟨fun h => absurd h hpos, fun _ => hok rfl⟩ hfit
    | false => exact ⟨rfl, Nat.ne_of_lt (hfail rfl)⟩

theorem rounds_mul {n : ℕ} (hn : 0 < n) (hlt : 4096 * n < 2147483648) :
    rounds (4096 * n : ℕ) = n ∧ rounds (-(4096 * n : ℕ)) = n := by
  unfold rounds pages
  constructor
  · rw [if_neg (by omega), Int.natAbs_natCast]
    split_ifs <;> omega
  · rw [if_neg (by omega), Int.natAbs_neg, Int.natAbs_natCast]
    split_ifs <;> omega

/-- Growth and shrinkage by whole pages, when the tables are there. -/
theorem Laid.restored {n : ℕ} {r : Option ℕ} {h' : Heap} {m' : Machine} (hl : Laid h m t [] free)
    (hn : 0 < n)
    (hlt : 4096 * n < 2147483648) (hfit : h.Fits (4096 * n : ℕ)) (hb : h.Backed m n)
    (hcall : Mem.heapSbrk (4096 * n : ℕ) h m = .ok (r, h') m') :
    ∃ r' h'' m'', Mem.heapSbrk (-(4096 * n : ℕ)) h' m' = .ok (r', h'') m'' ∧
      Unchanged h m h'' m'' := by
  obtain ⟨hgrow, hshrink⟩ := rounds_mul hn hlt
  have hfit' := hfit.1 (by omega)
  rw [hgrow] at hfit'
  have hcall' : wp (Mem.heapSbrk (4096 * n : ℕ) h) (fun r m' => r.2 = h.to (h.endAddr + 4096 * n) ∧
      ∃ free', Laid r.2 m' t [] free' ∧ m'.dir = m.dir ∧ free.length = free'.length + n ∧
        SameBut m m' fun page => h.endAddr ≤ 4096 * page ∧ 4096 * page < h.endAddr + 4096 * n)
          (fun _ _ => True) m := by
    unfold Mem.heapSbrk
    rw [if_neg (by omega), if_pos (by omega), hgrow, wp_bind]
    refine (hl.growHeap n fun _ => hfit').mono ?_ fun _ _ _ => trivial
    rintro _ m' ⟨rfl, free', hl', hdir', hsame'⟩
    exact ⟨rfl, free', hl', hdir', hsame' hb⟩
  obtain ⟨rfl, free', hl', hdir', hlen', hs'⟩ := hcall'.ok hcall
  have hback : wp (Mem.heapSbrk (-(4096 * n : ℕ)) (h.to (h.endAddr + 4096 * n)))
      (fun r m'' => Unchanged h m r.2 m'') (fun _ _ => False) m' := by
    unfold Mem.heapSbrk
    have hle := hl.start_le
    rw [if_neg (by omega), if_neg (by omega), hshrink, wp_bind]
    refine (hl'.shrinkHeap n ?_).mono ?_ fun _ _ => id
    · show h.startAddr + 4096 * n ≤ h.endAddr + 4096 * n
      omega
    · rintro _ m'' ⟨rfl, free'', hl'', hdir'', hlen'', hs''⟩
      have hend : (h.to (h.endAddr + 4096 * n)).endAddr - 4096 * n = h.endAddr :=
        Nat.add_sub_cancel ..
      rw [hend] at hl'' hs''
      refine ⟨hend, fun page hpage => ?_, ?_⟩
      · rw [hdir'', hdir']
        have hto : (h.to (h.endAddr + 4096 * n)).endAddr = h.endAddr + 4096 * n := rfl
        rw [hto] at hs''
        by_cases hin : h.endAddr ≤ 4096 * page ∧ 4096 * page < h.endAddr + 4096 * n
        · have hp : h.Page page := ⟨hle.trans hin.1, by omega⟩
          have hnone : ∀ {x : Option Mapping}, (x.isSome ↔ 4096 * page < h.endAddr) →
            x = none := fun hx =>
            Option.not_isSome_iff_eq_none.mp fun hs => absurd (hx.mp hs) (by omega)
          have h₀ := hnone (hl.mapped page hp)
          have h₁ := hnone (hl''.mapped page hp)
          rw [hdir'', hdir'] at h₁
          rw [h₀, h₁]
        · have := hs''.walk page hpage hin
          rw [hdir'] at this
          rw [this, hs'.walk page hpage hin]
      · rw [hl''.count, hl.count]
        omega
  obtain ⟨⟨r', h''⟩, m'', hm'', hu⟩ := hback.returns
  exact ⟨r', h'', m'', hm'', hu⟩

/-! ### Runs -/

/-- A call that meets a condition, and returns. -/
def HeapStep (C : Heap → ℤ → Prop) (s s' : Heap × Machine) : Prop :=
  ∃ (increment : ℤ) (r : Option ℕ), -2147483648 ≤ increment ∧ increment < 2147483648 ∧
    C s.1 increment ∧
    Mem.heapSbrk increment s.1 s.2 = .ok (r, s'.1) s'.2

/-- **The heap is as `_sbrk` should keep it**, in every run whose calls stay within its limits. Of
the calls that follow, those that fit never fail, and those that do not fit fail and change the
heap; and growth by whole pages for which the tables are there is undone by shrinkage. -/
theorem sbrk_keeps_heap {h : Heap} {m : Machine} {t : ℕ} {free : List ℕ} {s : Heap × Machine}
    (hl : Laid h m t [] free)
    (hr : Reach (HeapStep Heap.Fits) (h, m) s) : s.1.Exact s.2 ∧
      (∀ increment r h' m', Mem.heapSbrk increment s.1 s.2 = .ok (r, h') m' →
        ((r = none → Unchanged s.1 s.2 h' m') ↔ s.1.Fits increment)) ∧
      ∀ (n : ℕ) r h' m', 0 < n → 4096 * n < 2147483648 → s.1.Fits (4096 * n : ℕ) →
        s.1.Backed s.2 n →
        Mem.heapSbrk (4096 * n : ℕ) s.1 s.2 = .ok (r, h') m' →
          ∃ r' h'' m'', Mem.heapSbrk (-(4096 * n : ℕ)) h' m' = .ok (r', h'') m'' ∧
            Unchanged s.1 s.2 h'' m'' := by
  have hinv : ∃ free, Laid s.1 s.2 t [] free := by
    refine hr.invariant (I := fun s : Heap × Machine => ∃ free, Laid s.1 s.2 t [] free)
      (fun s s' h hs => ?_) ⟨free, hl⟩
    obtain ⟨free, hl⟩ := h
    obtain ⟨increment, r, -, -, hfit, hcall⟩ := hs
    exact ((hl.heapSbrk hfit).ok hcall).2
  obtain ⟨free', hl'⟩ := hinv
  refine ⟨hl'.exact, fun increment r h' m' hcall => ⟨fun himp => ?_, fun hfit hnone => ?_⟩,
    fun n r h' m' hn hlt hfit hb hcall => hl'.restored hn hlt hfit hb hcall⟩
  · by_contra hfit
    obtain ⟨hnone, hne⟩ := (hl'.heapSbrk_fails hfit).ok hcall
    exact hne (himp hnone).endAddr
  · have hsome := ((hl'.heapSbrk hfit).ok hcall).1
    rw [show r = none from hnone] at hsome
    cases hsome

end

theorem heapSbrk_of_grow {increment : ℤ} {h h' : Heap} {m m' : Machine} {done : Bool}
    (hpos : 0 < increment)
    (hg : growHeap (rounds increment) h m = .ok (done, h') m') :
    heapSbrk increment h m = .ok (if done then some h.endAddr else none, h') m' := by
  unfold heapSbrk
  rw [if_neg (by omega), if_pos hpos]
  show Prog.bind (growHeap (rounds increment) h) _ m = _
  rw [Prog.bind, hg]
  rfl

theorem Laid.grow_of_returned {n : ℕ} {h : Heap} {m : Machine} {t : ℕ} {free : List ℕ}
    (hl : Laid h m t [] free)
    (hlt : h.endAddr + 4096 * n < h.maxAddr) (hr : (Mem.growHeap n h m).returned = true) :
    ∃ m', Mem.growHeap n h m = .ok (true, h.to (h.endAddr + 4096 * n)) m' := by
  have hgrow := hl.growHeap n fun _ => hlt
  cases hg : Mem.growHeap n h m with
  | ok x m' =>
    obtain ⟨rfl, -⟩ := hgrow.ok hg
    exact ⟨_, rfl⟩
  | halt e m' =>
    rw [hg] at hr
    cases hr

/-- The heap of a process, before its first call. -/
def userHeap : Heap := ⟨0x20000000, 0x20000000, 0x30000000, false⟩

theorem userHeap_page {page : ℕ} (hp : userHeap.Page page) : smallMem 1 (page / 1024) = 0 := by
  have h1 : 0x20000000 ≤ 4096 * page := hp.1
  have h2 : 4096 * page < 0x30000000 := hp.2
  unfold smallMem
  split <;> first | rfl | omega

theorem userHeap_laid : Laid userHeap smallMachine 2 [] [5, 6, 7, 8] := by
  have hwalk : ∀ page, userHeap.Page page → walk smallMem 1 page = none := fun page hp =>
    walk_of_absent (by rw [userHeap_page hp])
  have huse : ∀ {u f}, Uses userHeap.Page smallMem 1 u f → u = .inl 1023 ∧ f = 1 ∨ u = .inl 1022 ∧
    f = 2 ∨ u = .inl 1020 ∧ f = 3 :=
    fun hu => by
      cases hu with
      | table hi hp =>
        obtain rfl | rfl | rfl := smallMem_dir hp
        · exact .inl ⟨rfl, rfl⟩
        · exact .inr (.inl ⟨rfl, rfl⟩)
        · exact .inr (.inr ⟨rfl, rfl⟩)
      | page hp hx => simp [hwalk _ hp] at hx
  refine ⟨smallMachine_space.toSane,
    rfl, by decide, by decide, by decide, by decide, by decide, by decide, by decide, by simp,
    fun i ⟨page, hp, hi⟩ _ => hi ▸ userHeap_page hp, fun u f hu => ?_, fun u u' f hu hu' =>
      ?_, fun page hp => ?_⟩
  · rcases huse hu with ⟨-, rfl⟩ | ⟨-, rfl⟩ | ⟨-, rfl⟩ <;> decide
  · rcases huse hu with ⟨rfl, rfl⟩ | ⟨rfl, rfl⟩ | ⟨rfl, rfl⟩ <;>
      rcases huse hu' with ⟨rfl, h⟩ | ⟨rfl, h⟩ | ⟨rfl, h⟩ <;>
      first | rfl | cases h
  · show (walk smallMem 1 page).isSome ↔ 4096 * page < 0x20000000
    have h1 : 0x20000000 ≤ 4096 * page := hp.1
    rw [hwalk page hp]
    simp only [Option.isSome_none, Bool.false_eq_true, false_iff]
    omega

/-- A process asks for a page. -/
theorem sbrk_keeps_heap_page : ∃ s, Reach (HeapStep Heap.Fits) (userHeap, smallMachine) s ∧
    s.1.endAddr = userHeap.endAddr + 4096 * 1 ∧ s.1.Exact s.2 := by
  have hfit : userHeap.Fits 4096 := ⟨fun _ => by decide, fun h => absurd h (by decide)⟩
  have hlt : userHeap.endAddr + 4096 * 1 < userHeap.maxAddr := by decide
  have hreturned : (growHeap 1 userHeap smallMachine).returned = true := by decide +kernel
  have hrounds : rounds 4096 = 1 := by decide
  obtain ⟨m', hg⟩ := userHeap_laid.grow_of_returned hlt hreturned
  generalize hend : userHeap.to (userHeap.endAddr + 4096 * 1) = h' at hg
  have hcall : heapSbrk 4096 userHeap smallMachine = .ok (some userHeap.endAddr, h') m' :=
    heapSbrk_of_grow (show (0 : ℤ) < 4096 by decide) (by rw [hrounds]; exact hg)
  have hrun : Reach (HeapStep Heap.Fits) (userHeap, smallMachine) (h', m') :=
    .single ⟨4096, _, by decide, by decide, hfit, hcall⟩
  refine ⟨_, hrun, ?_, (sbrk_keeps_heap userHeap_laid hrun).1⟩
  rw [← hend, Heap.to]

/-- **A failing call changes the heap**: `sbrk(-1)` of an empty heap puts its end a page before
its start. -/
theorem sbrk_below_start :
    ∃ h' m', Laid userHeap smallMachine 2 [] [5, 6, 7, 8] ∧ userHeap.endAddr = userHeap.startAddr ∧
    Mem.heapSbrk (-1) userHeap smallMachine = .ok (none, h') m' ∧ h'.endAddr < h'.startAddr ∧
      ¬Unchanged userHeap smallMachine h' m' := by
  have hcall : Mem.heapSbrk (-1) userHeap smallMachine =
    .ok (none, userHeap.to 0x1FFFF000) smallMachine := by
    have hrounds : rounds (-1) = 1 := by decide
    have hshrink : shrinkHeap 1 userHeap = pure (false, userHeap.to 0x1FFFF000) := by
      simp [shrinkHeap, userHeap, Heap.to]
    unfold Mem.heapSbrk
    rw [if_neg (by decide), if_neg (by decide), hrounds]
    show (shrinkHeap 1 userHeap >>= fun x =>
      pure (if x.1 then some userHeap.endAddr else none, x.2))
      smallMachine = _
    rw [hshrink, pure_bind]
    rfl
  have hlt : (userHeap.to 0x1FFFF000).endAddr < (userHeap.to 0x1FFFF000).startAddr := by decide
  have hne : ¬(userHeap.to 0x1FFFF000).endAddr = userHeap.endAddr := by decide
  exact ⟨_, _, userHeap_laid, rfl, hcall, hlt, fun h => hne h.endAddr⟩

end Cosiris.Mem
