import Cosiris.Mem.Paging

/-!
# Frames through the reserved page

What `mem.c` does to a frame that is not mapped: it maps the reserved page to the
frame, accesses it and unmaps the reserved page again. As long as the frame is
neither the current directory nor the table of the reserved page, this is an
access to the frame alone. On top of it, `frame_alloc` and `frame_free` are a stack of
free frames, linked through their first words.
-/

namespace Cosiris.Mem

open Prog

/-- The machine with other memory. -/
def Machine.withMem (m : Machine) (mem : Memory) : Machine := { m with mem := mem }

@[simp] theorem Machine.withMem_mem (m : Machine) (mem : Memory) : (m.withMem mem).mem = mem := rfl

@[simp] theorem Machine.withMem_dir (m : Machine) (mem : Memory) :
    (m.withMem mem).dir = m.dir := rfl

@[simp] theorem Machine.withMem_withMem (m : Machine) (mem mem' : Memory) :
    (m.withMem mem).withMem mem' = m.withMem mem' := rfl

section

variable {mem : Memory} {f g w v : ℕ} {c : ℕ → ℕ}

@[simp] theorem Memory.set_self : mem.set f w v f w = v := by simp [Memory.set]

theorem Memory.set_frame : mem.set f w v f = Function.update (mem f) w v := by simp [Memory.set]

theorem Memory.set_ne (h : g ≠ f) : mem.set f w v g = mem g := by simp [Memory.set, h]

theorem Memory.set_word_ne {w' : ℕ} (h : w' ≠ w) : mem.set f w v g w' = mem g w' := by
  by_cases hg : g = f
  · subst hg
    simp [Memory.set, h]
  · rw [Memory.set_ne hg]

@[simp] theorem Memory.fill_self : mem.fill f c f = c := by simp [Memory.fill]

theorem Memory.fill_ne (h : g ≠ f) : mem.fill f c g = mem g := by simp [Memory.fill, h]

theorem Memory.set_eq_fill : mem.set f w v = mem.fill f (Function.update (mem f) w v) := rfl

theorem entry_eq {flags : ℕ} (h : flags < 4096) : 4096 * f ||| flags = 4096 * f + flags :=
  (Nat.two_pow_add_eq_or_of_lt (i := 12) h f).symm

end

/-! ### The reserved page -/

/-- The last entry of the current directory maps the directory itself. -/
structure SelfMapped (m : Machine) : Prop where
  self : m.mem m.dir 1023 / 4096 = m.dir
  present : m.mem m.dir 1023 % 2 = 1

/-- The current directory maps itself, and frame `t` is its table for the reserved page, which is
mapped by the entry `v`. -/
structure Rooted (m : Machine) (t v : ℕ) : Prop where
  self : m.mem m.dir 1023 / 4096 = m.dir
  self_present : m.mem m.dir 1023 % 2 = 1
  table : m.mem m.dir 1022 / 4096 = t
  table_present : m.mem m.dir 1022 % 2 = 1
  resv : m.mem t 1022 = v
  ne : t ≠ m.dir

section

variable {m : Machine} {t f i w v : ℕ} {c : ℕ → ℕ} {E : Halt → Machine → Prop}

theorem SelfMapped.walk_pdir (h : SelfMapped m) :
    walk m.mem m.dir pdirPage = some ⟨m.mem m.dir 1023 % 4096, m.mem m.dir 1023 % 4096, m.dir⟩ := by
  unfold walk pdirPage
  simp [h.self, h.present]

theorem SelfMapped.walk_table (h : SelfMapped m) (hi : i < 1024) (hp : m.mem m.dir i % 2 = 1) :
    walk m.mem m.dir (ptablesPage + i) =
      some ⟨m.mem m.dir 1023 % 4096, m.mem m.dir i % 4096, m.mem m.dir i / 4096⟩ := by
  have h1 : (ptablesPage + i) / 1024 = 1023 := by unfold ptablesPage; omega
  have h2 : (ptablesPage + i) % 1024 = i := by unfold ptablesPage; omega
  unfold walk
  rw [h1, h2]
  simp [h.self, h.present, hp]

theorem Rooted.selfMapped (h : Rooted m t v) : SelfMapped m := ⟨h.self, h.self_present⟩

theorem Rooted.walk_pdir (h : Rooted m t v) :
    walk m.mem m.dir pdirPage = some ⟨m.mem m.dir 1023 % 4096, m.mem m.dir 1023 % 4096, m.dir⟩ :=
  h.selfMapped.walk_pdir

theorem Rooted.walk_table (h : Rooted m t v) (hi : i < 1024) (hp : m.mem m.dir i % 2 = 1) :
    walk m.mem m.dir (ptablesPage + i) =
      some ⟨m.mem m.dir 1023 % 4096, m.mem m.dir i % 4096, m.mem m.dir i / 4096⟩ :=
  h.selfMapped.walk_table hi hp

theorem Rooted.walk_resv (h : Rooted m t (4096 * f + 3)) :
    walk m.mem m.dir resvPage = some ⟨m.mem m.dir 1022 % 4096, 3, f⟩ := by
  have h1 : (4096 * f + 3) % 2 = 1 := by omega
  have h2 : (4096 * f + 3) % 4096 = 3 := by omega
  have h3 : (4096 * f + 3) / 4096 = f := by omega
  unfold walk resvPage
  simp [h.table, h.table_present, h.resv, h1, h2, h3]

theorem wp_translate {Q : ℕ → Machine → Prop} {page : ℕ} {x : Mapping}
    (h : walk m.mem m.dir page = some x) :
    wp (translate page) Q E m = Q x.frame m := by
  simp [translate, h]

theorem wp_vread {Q : ℕ → Machine → Prop} {page : ℕ} {x : Mapping}
    (h : walk m.mem m.dir page = some x) :
    wp (vread page w) Q E m = Q (m.mem x.frame w) m := by
  simp [vread, wp_translate h]

theorem wp_vwrite {Q : Unit → Machine → Prop} {page : ℕ} {x : Mapping}
    (h : walk m.mem m.dir page = some x) :
    wp (vwrite page w v) Q E m = Q () (m.withMem (m.mem.set x.frame w v)) := by
  simp [vwrite, wp_translate h, Machine.withMem]

theorem wp_memsetPage {Q : Unit → Machine → Prop} {page : ℕ} {x : Mapping}
    (h : walk m.mem m.dir page = some x) :
    wp (memsetPage page) Q E m = Q () (m.withMem (m.mem.fill x.frame fun _ => 0)) := by
  simp [memsetPage, wp_translate h, Machine.withMem]

theorem wp_memcpyPage {Q : Unit → Machine → Prop} {dst src : ℕ} {x y : Mapping}
    (hx : walk m.mem m.dir src = some x)
    (hy : walk m.mem m.dir dst = some y) :
    wp (memcpyPage dst src) Q E m = Q () (m.withMem (m.mem.fill y.frame (m.mem x.frame))) := by
  simp [memcpyPage, wp_translate hx, wp_translate hy, Machine.withMem]

theorem Rooted.wp_pdir {Q : ℕ → Machine → Prop} (h : Rooted m t v) :
    wp (vread pdirPage i) Q E m = Q (m.mem m.dir i) m := wp_vread h.walk_pdir

/-- Mapping the reserved page writes its entry. -/
theorem Rooted.wp_mapResv {Q : Unit → Machine → Prop} {phys flags : ℕ} (h : Rooted m t v) :
    wp (mapResv phys flags) Q E m = Q () (m.withMem (m.mem.set t 1022 (phys ||| flags))) := by
  have hne : m.mem m.dir 1022 ≠ 0 := by
    have := h.table_present
    omega
  have hdir : resvPage / 1024 = 1022 := rfl
  have htbl : resvPage % 1024 = 1022 := rfl
  have hwalk := h.walk_table (i := 1022) (by decide) h.table_present
  simp only [mapResv, mapWith, hdir, htbl, wp_bind, h.wp_pdir, wp_ite, hne, if_false]
  rw [wp_vwrite hwalk, h.table]

/-- The reserved page mapped otherwise. -/
theorem Rooted.setResv (h : Rooted m t v) (v' : ℕ) :
    Rooted (m.withMem (m.mem.set t 1022 v')) t v' where
  self := by simpa [Memory.set_ne h.ne.symm] using h.self
  self_present := by simpa [Memory.set_ne h.ne.symm] using h.self_present
  table := by simpa [Memory.set_ne h.ne.symm] using h.table
  table_present := by simpa [Memory.set_ne h.ne.symm] using h.table_present
  resv := Memory.set_self
  ne := h.ne

/-- Another frame written. -/
theorem Rooted.fill (h : Rooted m t v) (hd : f ≠ m.dir) (ht : f ≠ t) (c : ℕ → ℕ) :
    Rooted (m.withMem (m.mem.fill f c)) t v where
  self := by simpa [Memory.fill_ne hd.symm] using h.self
  self_present := by simpa [Memory.fill_ne hd.symm] using h.self_present
  table := by simpa [Memory.fill_ne hd.symm] using h.table
  table_present := by simpa [Memory.fill_ne hd.symm] using h.table_present
  resv := by simpa [Memory.fill_ne ht.symm] using h.resv
  ne := h.ne

theorem Rooted.set_set (h : Rooted m t 0) (x : ℕ) : (m.mem.set t 1022 x).set t 1022 0 = m.mem := by
  funext g
  by_cases hgt : g = t
  · subst hgt
    rw [Memory.set_frame, Memory.set_frame, Function.update_idem, ← h.resv, Function.update_eq_self]
  · rw [Memory.set_ne hgt, Memory.set_ne hgt]

/-- When the reserved page is unmapped again, only the frame has changed. -/
theorem Rooted.restore (h : Rooted m t 0) (ht : f ≠ t) (x : ℕ) :
    ((m.mem.set t 1022 x).fill f c).set t 1022 0 = m.mem.fill f c := by
  have hcomm : ((m.mem.set t 1022 x).fill f c).set t 1022 0 =
    ((m.mem.set t 1022 x).set t 1022 0).fill f c := by
    funext g
    by_cases hgf : g = f
    · subst hgf
      rw [Memory.set_ne ht, Memory.fill_self, Memory.fill_self]
    · rw [Memory.fill_ne hgf]
      by_cases hgt : g = t
      · subst hgt
        rw [Memory.set_frame, Memory.fill_ne hgf]
        exact Memory.set_frame.symm
      · rw [Memory.set_ne hgt, Memory.fill_ne hgf]
        exact (Memory.set_ne hgt).symm
  rw [hcomm, h.set_set]

theorem Rooted.wp_tempMap {Q : Unit → Machine → Prop} (h : Rooted m t v) :
    wp (tempMap (4096 * f)) Q E m = Q () (m.withMem (m.mem.set t 1022 (4096 * f + 3))) := by
  rw [tempMap, h.wp_mapResv, entry_eq (by decide)]

theorem Rooted.wp_tempUnmap {Q : Unit → Machine → Prop} (h : Rooted m t v) :
    wp tempUnmap Q E m = Q () (m.withMem (m.mem.set t 1022 0)) := by
  rw [tempUnmap, h.wp_mapResv]
  rfl

/-- With the reserved page mapped to a frame, the frame is changed and the page unmapped. -/
theorem Rooted.wp_body {Q : Unit → Machine → Prop} {body : MemM Unit} (h : Rooted m t 0)
    (hd : f ≠ m.dir) (ht : f ≠ t)
    (hbody : ∀ Q : Unit → Machine → Prop,
      wp body Q E (m.withMem (m.mem.set t 1022 (4096 * f + 3))) =
        Q () (m.withMem ((m.mem.set t 1022 (4096 * f + 3)).fill f c))) :
    wp (do tempMap (4096 * f); body; tempUnmap) Q E m = Q () (m.withMem (m.mem.fill f c)) := by
  have h₂ := (h.setResv (4096 * f + 3)).fill hd ht c
  rw [wp_bind, h.wp_tempMap, wp_bind, hbody]
  simp only [Machine.withMem_mem, Machine.withMem_withMem] at h₂
  rw [h₂.wp_tempUnmap, Machine.withMem_withMem, Machine.withMem_mem, h.restore ht]

/-- Writing a word of a frame. -/
theorem Rooted.wp_poke {Q : Unit → Machine → Prop} (h : Rooted m t 0) (hd : f ≠ m.dir)
    (ht : f ≠ t) :
    wp (do tempMap (4096 * f); vwrite resvPage w v; tempUnmap) Q E m =
      Q () (m.withMem (m.mem.set f w v)) := by
  refine h.wp_body hd ht fun Q => ?_
  rw [wp_vwrite (h.setResv (4096 * f + 3)).walk_resv]
  simp only [Machine.withMem_mem, Machine.withMem_withMem, Memory.set_eq_fill (f := f),
    Memory.set_ne ht]

/-- Filling a frame with zeros. -/
theorem Rooted.wp_clear {Q : Unit → Machine → Prop} (h : Rooted m t 0) (hd : f ≠ m.dir)
    (ht : f ≠ t) :
    wp (do tempMap (4096 * f); memsetPage resvPage; tempUnmap) Q E m =
      Q () (m.withMem (m.mem.fill f fun _ => 0)) := by
  refine h.wp_body hd ht fun Q => ?_
  rw [wp_memsetPage (h.setResv (4096 * f + 3)).walk_resv]
  rfl

/-- Mapping the reserved page changes the translation of no page that is mapped. -/
theorem Rooted.walk_setResv {page : ℕ} {x : Mapping} (h : Rooted m t 0)
    (hx : walk m.mem m.dir page = some x) (v : ℕ) :
    walk (m.mem.set t 1022 v) m.dir page = some x := by
  have hpte : m.mem.set t 1022 v (m.mem m.dir (page / 1024) / 4096) (page % 1024) =
      m.mem (m.mem m.dir (page / 1024) / 4096) (page % 1024) := by
    by_cases hw : page % 1024 = 1022
    · rw [Memory.set_ne]
      intro ht
      simp [walk, hw, ht, h.resv] at hx
    · exact Memory.set_word_ne hw
  simpa only [walk, Memory.set_ne h.ne.symm, hpte] using hx

/-- Copying a page to a frame. -/
theorem Rooted.wp_copy {Q : Unit → Machine → Prop} {page : ℕ} {x : Mapping} (h : Rooted m t 0)
    (hd : f ≠ m.dir)
    (ht : f ≠ t) (hx : walk m.mem m.dir page = some x) (hxt : x.frame ≠ t) :
    wp (do tempMap (4096 * f); memcpyPage resvPage page; tempUnmap) Q E m =
      Q () (m.withMem (m.mem.fill f (m.mem x.frame))) := by
  refine h.wp_body hd ht fun Q => ?_
  have hx' : walk (m.withMem (m.mem.set t 1022 (4096 * f + 3))).mem m.dir page = some x :=
    h.walk_setResv hx _
  rw [wp_memcpyPage hx' (h.setResv (4096 * f + 3)).walk_resv]
  simp only [Machine.withMem_mem, Machine.withMem_withMem, Memory.set_ne hxt]

/-- Reading a word of a frame, and going on with it. -/
theorem Rooted.wp_peek {α : Type} {Q : α → Machine → Prop} {k : ℕ → MemM α} (h : Rooted m t 0)
    (ht : f ≠ t) :
    wp (do tempMap (4096 * f); let v ← vread resvPage w; tempUnmap; k v) Q E m =
      wp (k (m.mem f w)) Q E m := by
  have h₁ := h.setResv (4096 * f + 3)
  rw [wp_bind, h.wp_tempMap, wp_bind, wp_vread h₁.walk_resv, wp_bind, h₁.wp_tempUnmap]
  simp only [Machine.withMem_mem, Machine.withMem_withMem, h.set_set, Memory.set_ne ht]
  rfl

end

/-! ### Free frames -/

/-- The free frames, linked through their first words from the address `last` on. -/
def FreeList (mem : Memory) : ℕ → List ℕ → Prop
  | last, [] => last = 0
  | last, f :: fs => last = 4096 * f ∧ f ≠ 0 ∧ FreeList mem (mem f 0) fs

/-- The machine between two operations: the current directory maps itself, frame `t` is its table
for the reserved page, which is not mapped, and `free` are the free frames, which are none of
these. -/
structure Sane (m : Machine) (t : ℕ) (free : List ℕ) : Prop where
  rooted : Rooted m t 0
  chain : FreeList m.mem m.lastFreePage free
  nodup : free.Nodup
  dir_notMem : m.dir ∉ free
  table_notMem : t ∉ free

/-- The machine after the allocation of frame `f`, with the contents `c`. -/
def Machine.take (m : Machine) (f : ℕ) (c : ℕ → ℕ) : Machine :=
  { m with mem := m.mem.fill f c, lastFreePage := m.mem f 0, numPages := m.numPages - 1 }

/-- The machine after frame `f` was freed. -/
def Machine.give (m : Machine) (f : ℕ) : Machine :=
  { m with mem := m.mem.set f 0 m.lastFreePage, lastFreePage := 4096 * f,
           numPages := m.numPages + 1 }

section

variable {m : Machine} {t f i w v : ℕ} {c : ℕ → ℕ} {free : List ℕ} {E : Halt → Machine → Prop}

theorem FreeList.congr {mem mem' : Memory} {last : ℕ} (h : FreeList mem last free)
    (hm : ∀ f ∈ free, mem' f 0 = mem f 0) :
    FreeList mem' last free := by
  induction free generalizing last with
  | nil => exact h
  | cons f fs ih =>
    refine ⟨h.1, h.2.1, ?_⟩
    rw [hm f (by simp)]
    exact ih h.2.2 fun g hg => hm g (by simp [hg])

theorem FreeList.ne_zero {mem : Memory} {last : ℕ} (h : FreeList mem last free) (hf : f ∈ free) :
    f ≠ 0 := by
  induction free generalizing last with
  | nil => cases hf
  | cons g fs ih =>
    rcases List.mem_cons.mp hf with rfl | hf
    · exact h.2.1
    · exact ih h.2.2 hf

/-- A frame in use is written. -/
theorem Sane.fill (h : Sane m t free) (hd : f ≠ m.dir) (ht : f ≠ t) (hf : f ∉ free) (c : ℕ → ℕ) :
    Sane (m.withMem (m.mem.fill f c)) t free where
  rooted := h.rooted.fill hd ht c
  chain := h.chain.congr fun g hg => by
    have : g ≠ f := fun e => hf (e ▸ hg)
    simp [Memory.fill_ne this]
  nodup := h.nodup
  dir_notMem := h.dir_notMem
  table_notMem := h.table_notMem

theorem Sane.take (h : Sane m t (f :: free)) (c : ℕ → ℕ) : Sane (m.take f c) t free := by
  have hd : f ≠ m.dir := fun e => h.dir_notMem (by simp [e])
  have ht : f ≠ t := fun e => h.table_notMem (by simp [e])
  have hr := h.rooted.fill hd ht c
  refine ⟨⟨hr.self, hr.self_present, hr.table, hr.table_present, hr.resv, hr.ne⟩, ?_,
    (List.nodup_cons.mp h.nodup).2, fun hm => h.dir_notMem (List.mem_cons_of_mem _ hm), fun hm =>
      h.table_notMem (List.mem_cons_of_mem _ hm)⟩
  refine h.chain.2.2.congr fun g hg => ?_
  have : g ≠ f := fun e => (List.nodup_cons.mp h.nodup).1 (e ▸ hg)
  show m.mem.fill f c g 0 = _
  rw [Memory.fill_ne this]

theorem Sane.give (h : Sane m t free) (h0 : f ≠ 0) (hd : f ≠ m.dir) (ht : f ≠ t) (hf : f ∉ free) :
    Sane (m.give f) t (f :: free) := by
  have hr := h.rooted.fill hd ht (Function.update (m.mem f) 0 m.lastFreePage)
  refine ⟨⟨hr.self, hr.self_present, hr.table, hr.table_present, hr.resv, hr.ne⟩, ⟨rfl, h0, ?_⟩,
    List.nodup_cons.mpr ⟨hf, h.nodup⟩, ?_, ?_⟩
  · show FreeList (m.mem.set f 0 m.lastFreePage) (m.mem.set f 0 m.lastFreePage f 0) free
    rw [Memory.set_self]
    refine h.chain.congr fun g hg => ?_
    have : g ≠ f := fun e => hf (e ▸ hg)
    rw [Memory.set_ne this]
  · show m.dir ∉ f :: free
    simpa [hd.symm] using h.dir_notMem
  · simpa [ht.symm] using h.table_notMem

/-- **`frame_alloc`** takes the first free frame. -/
theorem Sane.wp_frameAlloc {Q : ℕ → Machine → Prop} (h : Sane m t (f :: free)) :
    wp frameAlloc Q E m = Q (4096 * f) (m.take f (Function.update (m.mem f) 0 0)) := by
  have hlast := h.chain.1
  have h0 := h.chain.2.1
  have hd : f ≠ m.dir := fun e => h.dir_notMem (by simp [e])
  have ht : f ≠ t := fun e => h.table_notMem (by simp [e])
  have hne : m.lastFreePage ≠ 0 := by omega
  have h₁ := h.rooted.setResv (4096 * f + 3)
  have h₂ := h₁.fill hd ht (Function.update (m.mem f) 0 0)
  let m₁ : Machine := { m.withMem (m.mem.set t 1022 (4096 * f + 3)) with lastFreePage := m.mem f 0 }
  let m₂ : Machine := m₁.withMem (m₁.mem.fill f (Function.update (m.mem f) 0 0))
  have hw : walk m₁.mem m₁.dir resvPage = some ⟨_, 3, f⟩ := h₁.walk_resv
  have hr : Rooted m₂ t (4096 * f + 3) :=
    ⟨h₂.self, h₂.self_present, h₂.table, h₂.table_present, h₂.resv, h₂.ne⟩
  have hset : m₁.mem.set f 0 0 = m₁.mem.fill f (Function.update (m.mem f) 0 0) := by
    rw [Memory.set_eq_fill]
    simp only [m₁, Machine.withMem_mem, Memory.set_ne ht]
  have hback : m₂.mem.set t 1022 0 = m.mem.fill f (Function.update (m.mem f) 0 0) :=
    h.rooted.restore ht _
  simp only [frameAlloc, wp_bind, wp_read, kassert, ne_eq, hne, not_false_eq_true, decide_true,
    if_true, wp_pure]
  rw [hlast, h.rooted.wp_tempMap, wp_vread h₁.walk_resv, wp_modify]
  simp only [Machine.withMem_mem, Memory.set_ne ht]
  show wp (vwrite resvPage 0 0) _ _ m₁ = _
  rw [wp_vwrite hw, hset]
  show wp tempUnmap _ _ m₂ = _
  rw [hr.wp_tempUnmap, wp_modify, hback]
  rfl

/-- The assertion that fails when no frame is free. -/
def outOfFrames : Halt := .kassert "last_free_page != 0"

theorem wp_frameAlloc_zero {Q : ℕ → Machine → Prop} (h0 : m.lastFreePage = 0) :
    wp frameAlloc Q E m = E outOfFrames m := by
  simp only [frameAlloc, wp_bind, wp_read, h0, kassert]
  rfl

theorem Sane.wp_frameAlloc_nil {Q : ℕ → Machine → Prop} (h : Sane m t []) :
    wp frameAlloc Q E m = E outOfFrames m :=
  wp_frameAlloc_zero h.chain

theorem Sane.wp_frameCalloc_nil {Q : ℕ → Machine → Prop} (h : Sane m t []) :
    wp frameCalloc Q E m = E outOfFrames m := by
  rw [frameCalloc, wp_bind, h.wp_frameAlloc_nil]

/-- **`frame_calloc`** takes the first free frame and clears it. -/
theorem Sane.wp_frameCalloc {Q : ℕ → Machine → Prop} (h : Sane m t (f :: free)) :
    wp frameCalloc Q E m = Q (4096 * f) (m.take f fun _ => 0) := by
  have hd : f ≠ m.dir := fun e => h.dir_notMem (by simp [e])
  have ht : f ≠ t := fun e => h.table_notMem (by simp [e])
  have hclear :=
    @Rooted.wp_clear _ t f E (fun _ => Q (4096 * f))
      (h.take (Function.update (m.mem f) 0 0)).rooted hd
      ht
  simp only [wp_bind] at hclear
  simp only [frameCalloc, wp_bind, h.wp_frameAlloc, wp_pure, hclear]
  simp only [Machine.take, Machine.withMem, Memory.fill, Function.update_idem]

/-- **`frame_free`** makes a frame the first free one. -/
theorem Sane.wp_frameFree {Q : Unit → Machine → Prop} (h : Sane m t free) (hd : f ≠ m.dir)
    (ht : f ≠ t) :
    wp (frameFree (4096 * f)) Q E m = Q () (m.give f) := by
  have hpoke := fun Q' : Unit → Machine → Prop =>
    @Rooted.wp_poke m t f 0 m.lastFreePage E Q' h.rooted hd ht
  simp only [wp_bind, h.rooted.wp_tempMap] at hpoke
  have hal : 4096 * f % 4096 = 0 := by omega
  simp only [frameFree, wp_bind, kassert, hal, decide_true, if_true, wp_pure, h.rooted.wp_tempMap,
    wp_read]
  show wp (vwrite resvPage 0 m.lastFreePage) _ _ _ = _
  rw [hpoke, wp_modify]
  rfl

end

end Cosiris.Mem
