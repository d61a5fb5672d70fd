import Cosiris.Mem.Frames
import Mathlib.Data.List.Nodup
import Mathlib.Data.List.Pairwise
import Mathlib.Data.List.Perm.Subperm

/-!
# The memory map

`get_kernel_info` of `kinfo.c`, which copies the memory map of the boot loader, and
`reserve_memory` of `mem.c`, which links the frames of its usable entries to the list of free
frames, before paging is turned on. The map is the list of the entries that the code finds by
following their `size` fields.

Two of the loops need not end, so the model runs them with a bounded number of rounds; a run that
has not ended by then halts with `none`.
-/

namespace Cosiris.Mem.Boot

open Prog

/-- An entry of the memory map (`memory_map`). -/
structure MemoryMap where
  baseAddrLow : UInt32
  baseAddrHigh : UInt32
  lengthLow : UInt32
  lengthHigh : UInt32
  type : UInt32

/-- `struct minfo`. -/
structure Minfo where
  base : UInt64
  length : UInt64
  type : UInt8

/-- What the boot loader passes: `after` are the bytes that follow the map in the memory. -/
structure Multiboot where
  flags : UInt32
  memUpper : UInt32
  mmap : List MemoryMap
  after : MemoryMap

/-- The elements of `kinfo.minfo` that are filled, the memory, and the list of free frames. -/
structure State where
  minfo : List Minfo
  mem : Memory
  lastFreePage : UInt32
  numPages : ℕ

abbrev BootM := Prog (Option Halt) State

/-- `MBOOT_MAGIC`. -/
def mbootMagic : UInt32 := 0x2BADB002

/-- `CRT_ADDR`. -/
def crtAddr : UInt32 := 0xB8000

/-- What `get_kernel_info` keeps of an entry. The halves are added as 32-bit numbers, the upper
one shifted by 16. -/
def MemoryMap.minfo (mm : MemoryMap) : Minfo where
  base := ((mm.baseAddrHigh <<< 16) + mm.baseAddrLow).toUInt64
  length := ((mm.lengthHigh <<< 16) + mm.lengthLow).toUInt64
  type := mm.type.toUInt8

/-- The `do` loop of `get_kernel_info`, at the first of the entries `mm`. The `continue` does not
move on. -/
def mmapLoop (after : MemoryMap) : ℕ → List MemoryMap → BootM Unit
  | 0, _ => halt none
  | fuel + 1, mm => do
    let entry := mm.headD after
    if entry.type &&& 7 = 0 then
      if mm ≠ [] then mmapLoop after fuel mm
    else
      modify fun s => { s with minfo := s.minfo ++ [entry.minfo] }
      let s ← read
      if s.minfo.length > 32 then
        halt (some (.panic "get_kernel_info: Please increase minfo elements\n"))
      if mm.tail ≠ [] then mmapLoop after fuel mm.tail

/-- `get_kernel_info`. Both flags are tested by `&&`. -/
def getKernelInfo (magic : UInt32) (mb : Multiboot) (fuel : ℕ) : BootM Unit := do
  if magic ≠ mbootMagic then halt (some (.panic "Invalid multiboot magic: %u\n"))
  if mb.flags ≠ 0 then mmapLoop mb.after fuel mb.mmap
  else if mb.flags ≠ 0 then modify fun s =>
    { s with minfo := [⟨0x100000, (mb.memUpper * 1024).toUInt64, 1⟩] }
  else halt (some (.panic "Unable to detect memory\n"))

/-- `frame_free`, with paging off. -/
def frameFree (addr : UInt32) : BootM Unit := do
  if addr &&& 0xFFF ≠ 0 then halt (some (.kassert "!(addr & 0xFFF)"))
  modify fun s => { s with
    mem := s.mem.set (addr.toNat / 4096) 0 s.lastFreePage.toNat
    lastFreePage := addr
    numPages := s.numPages + 1 }

/-- The body of the loop of `reserve_region`. -/
def visit (kend addr ptr : UInt32) : BootM Unit := do
  if ptr = 0 then modify fun s =>
    { s with mem := s.mem.set (addr.toNat / 4096) (addr.toNat % 4096 / 4) 0 }
  else if ptr ≥ crtAddr ∧ ptr ≤ kend then pure ()
  else frameFree ptr

/-- The loop of `reserve_region`. -/
def regionLoop (kend addr length : UInt32) : ℕ → UInt32 → BootM Unit
  | 0, _ => halt none
  | fuel + 1, ptr => do
    if ptr - addr < length then
      visit kend addr ptr
      regionLoop kend addr length fuel (ptr + 4096)

/-- `reserve_region`. -/
def reserveRegion (kend addr length : UInt32) (fuel : ℕ) : BootM Unit :=
  regionLoop kend addr length fuel addr

/-- The loop of `reserve_memory`. The elements of `kinfo.minfo` that were not filled have type 0. -/
def reserveLoop (kend : UInt32) (fuel : ℕ) : List Minfo → BootM Unit
  | [] => pure ()
  | minfo :: rest => do
    if minfo.type = 1 then reserveRegion kend minfo.base.toUInt32 minfo.length.toUInt32 fuel
    reserveLoop kend fuel rest

/-- `reserve_memory`, as `mem_init` calls it. -/
def reserveMemory (kend : UInt32) (fuel : ℕ) : BootM Unit := do
  modify fun s => { s with lastFreePage := 0, numPages := 0 }
  let s ← read
  reserveLoop kend fuel s.minfo

/-- The start of the kernel, as far as the list of free frames. -/
def boot (magic : UInt32) (mb : Multiboot) (kend : UInt32) (fuel : ℕ) : BootM Unit := do
  getKernelInfo magic mb fuel
  reserveMemory kend fuel

/-- The state before. -/
def initial (mem : Memory) : State := ⟨[], mem, 0, 0⟩

/-! ### What the entries say -/

/-- The first address of an entry. -/
def MemoryMap.base (mm : MemoryMap) : ℕ := mm.baseAddrHigh.toNat * 4294967296 + mm.baseAddrLow.toNat

/-- The number of bytes of an entry. -/
def MemoryMap.length (mm : MemoryMap) : ℕ := mm.lengthHigh.toNat * 4294967296 + mm.lengthLow.toNat

/-- The frames that stay out of the list: frame 0, and those from the video memory to the end of
the kernel. -/
def Skipped (kend : UInt32) (p : ℕ) : Prop := p = 0 ∨ crtAddr.toNat ≤ p ∧ p ≤ kend.toNat

instance (kend : UInt32) : DecidablePred (Skipped kend) :=
  fun _ => inferInstanceAs (Decidable (_ ∨ _))

/-- The frames to be free: those below 4 GB that lie entirely in a usable entry. -/
def Wanted (kend : UInt32) (mmap : List MemoryMap) (f : ℕ) : Prop :=
  4096 * f < 4294967296 ∧ ¬Skipped kend (4096 * f) ∧
    ∃ mm ∈ mmap, mm.type = 1 ∧ mm.base ≤ 4096 * f ∧ 4096 * f + 4096 ≤ mm.base + mm.length

/-- The usable entries do not overlap. -/
def Apart (mmap : List MemoryMap) : Prop :=
  mmap.Pairwise fun mm mm' => mm.type = 1 → mm'.type = 1 →
    ∀ x, ¬((mm.base ≤ x ∧ x < mm.base + mm.length) ∧ mm'.base ≤ x ∧ x < mm'.base + mm'.length)

/-- The kernel starts, and the list has each frame to be free once, and no other. -/
def Frees (kend : UInt32) (mb : Multiboot) (mem : Memory) : Prop :=
  ∃ fuel s, boot mbootMagic mb kend fuel (initial mem) = .ok () s ∧
    ∃ free, FreeList s.mem s.lastFreePage.toNat free ∧
    free.Nodup ∧ (∀ f, f ∈ free ↔ Wanted kend mb.mmap f) ∧ s.numPages = free.length

/-- The entry ends at 4 GB or below. -/
def MemoryMap.Low (mm : MemoryMap) : Prop :=
  mm.length < 4294967296 ∧ mm.base + mm.length ≤ 4294967296

/-- An entry whose type has the low byte 1, and is taken for usable: it ends at 4 GB or below, it
is not so long that the loop goes round the address space, and each page that starts in it is
skipped or a whole frame of a usable entry. -/
def MemoryMap.Regular (kend : UInt32) (mm : MemoryMap) : Prop :=
  mm.Low ∧ mm.length ≤ 4294963200 ∧ ∀ k, 4096 * k < mm.length →
    Skipped kend (mm.base + 4096 * k) ∨ mm.type = 1 ∧ mm.base % 4096 = 0 ∧
      4096 * (k + 1) ≤ mm.length

/-- The map has an entry, no entry of a type that the first loop never leaves, and regular
entries. -/
def Regular (kend : UInt32) (mmap : List MemoryMap) : Prop :=
  mmap ≠ [] ∧ ∀ mm ∈ mmap, mm.type.toNat % 8 ≠ 0 ∧ (mm.type.toNat % 256 = 1 → mm.Regular kend)

/-! ### The loop of a region -/

section

variable {kend addr length ptr : UInt32} {s : State} {E : Option Halt → State → Prop} {fuel : ℕ}

theorem wp_regionLoop {I : ℕ → State → Prop} (hn : addr.toNat + length.toNat ≤ 4294967296)
    (hlen : length.toNat ≤ 4294963200)
    (hstep : ∀ k s ptr, 4096 * k < length.toNat → ptr.toNat = addr.toNat + 4096 * k → I k s →
      wp (visit kend addr ptr) (fun _ s' => I (k + 1) s') E s) (k : ℕ)
        (hk : k ≤ (length.toNat + 4095) / 4096)
    (hptr : ptr.toNat = (addr.toNat + 4096 * k) % 4294967296)
    (hE : fuel ≤ (length.toNat + 4095) / 4096 - k → ∀ s, E none s)
    (h : I k s) :
    wp (regionLoop kend addr length fuel ptr) (fun _ s' => I ((length.toNat + 4095) / 4096) s') E
      s := by
  induction fuel generalizing k ptr s with
  | zero => exact hE (Nat.zero_le _) s
  | succ fuel ih =>
    have hsub : (ptr - addr).toNat = 4096 * k := by
      rw [UInt32.toNat_sub]
      omega
    rw [regionLoop, wp_ite]
    split_ifs with hlt
    · rw [UInt32.lt_iff_toNat_lt, hsub] at hlt
      rw [wp_bind]
      refine (hstep k s ptr hlt (by omega) h).mono (fun _ s' hs' => ?_) fun _ _ => id
      refine ih (k + 1) (by omega) ?_ (fun hf => hE (by omega)) hs'
      rw [UInt32.toNat_add]
      simp only [UInt32.reduceToNat]
      omega
    · rw [UInt32.lt_iff_toNat_lt, hsub] at hlt
      have : k = (length.toNat + 4095) / 4096 := by omega
      rw [wp_pure, ← this]
      exact h

/-- A region that is too long is never left. -/
theorem regionLoop_hangs (hlen : 4294963200 < length.toNat) (hptr : (ptr - addr).toNat % 4096 = 0) :
    wp (regionLoop kend addr length fuel ptr) (fun _ _ => False) (fun _ _ => True) s := by
  induction fuel generalizing ptr s with
  | zero => trivial
  | succ fuel ih =>
    have hlt : ptr - addr < length := by
      rw [UInt32.lt_iff_toNat_lt]
      have := (ptr - addr).toNat_lt
      omega
    rw [regionLoop, if_pos hlt, wp_bind]
    have hbody : wp (visit kend addr ptr) (fun _ _ => True) (fun _ _ => True) s := by
      unfold wp
      split <;> trivial
    refine hbody.mono (fun _ s' _ => ih ?_) fun _ _ => id
    rw [UInt32.toNat_sub] at hptr ⊢
    rw [UInt32.toNat_add]
    simp only [UInt32.reduceToNat]
    omega

theorem skipped_iff : Skipped kend ptr.toNat ↔ ptr = 0 ∨ ptr ≥ crtAddr ∧ ptr ≤ kend := by
  unfold Skipped
  rw [ge_iff_le, UInt32.le_iff_toNat_le, UInt32.le_iff_toNat_le, ← UInt32.toNat_inj]
  rfl

theorem and_mask_eq_zero : ptr &&& 0xFFF = 0 ↔ ptr.toNat % 4096 = 0 := by
  rw [← UInt32.toNat_inj, UInt32.toNat_and]
  show ptr.toNat &&& (2 ^ 12 - 1) = 0 ↔ _
  rw [Nat.and_two_pow_sub_one_eq_mod]

/-- The frames of the first `k` pages from the address `a` on that are not skipped. -/
def freed (kend : UInt32) (a k : ℕ) : List ℕ :=
  (((List.range k).map fun j => a + 4096 * j).filter fun p => ¬Skipped kend p).map (· / 4096)

theorem freed_succ_of_skipped {a k : ℕ} (h : Skipped kend (a + 4096 * k)) :
    freed kend a (k + 1) = freed kend a k := by
  simp [freed, List.range_succ, h]

theorem freed_succ {a k : ℕ} (h : ¬Skipped kend (a + 4096 * k)) :
    freed kend a (k + 1) = freed kend a k ++ [(a + 4096 * k) / 4096] := by
  simp [freed, List.range_succ, h]

theorem mem_freed {a k f : ℕ} :
    f ∈ freed kend a k ↔ ∃ j < k, ¬Skipped kend (a + 4096 * j) ∧ (a + 4096 * j) / 4096 = f := by
  simp [freed, and_assoc]

theorem freed_mono {j k : ℕ} (kend : UInt32) (a : ℕ) (h : j ≤ k) :
    freed kend a j <+: freed kend a k := by
  induction k, h using Nat.le_induction with
  | base => exact List.prefix_rfl
  | succ k _ ih =>
    by_cases hs : Skipped kend (a + 4096 * k)
    · rwa [freed_succ_of_skipped hs]
    · rw [freed_succ hs]
      exact ih.trans (List.prefix_append _ _)

theorem freed_nodup {a : ℕ} (k : ℕ) : (freed kend a k).Nodup := by
  induction k with
  | zero => exact List.nodup_nil
  | succ k ih =>
    by_cases hs : Skipped kend (a + 4096 * k)
    · rwa [freed_succ_of_skipped hs]
    · rw [freed_succ hs, List.nodup_append]
      refine ⟨ih, List.nodup_singleton _, fun f hf g hg e => ?_⟩
      obtain ⟨j, hj, -, rfl⟩ := mem_freed.mp hf
      simp only [List.mem_singleton] at hg
      omega

/-- The list of free frames is `free`. -/
structure Holds (s : State) (free : List ℕ) : Prop where
  chain : FreeList s.mem s.lastFreePage.toNat free
  count : s.numPages = free.length

/-- A page that the loop visits is skipped, or its frame is freed. -/
theorem visit_holds {free : List ℕ} (h : Holds s free) (haddr : ptr.toNat = 0 → addr.toNat = 0)
    (hal : ¬Skipped kend ptr.toNat → ptr.toNat % 4096 = 0)
    (hnew : ¬Skipped kend ptr.toNat → ptr.toNat / 4096 ∉ free) :
    wp (visit kend addr ptr)
      (fun _ s' => Holds s' (if Skipped kend ptr.toNat then free else ptr.toNat / 4096 :: free))
      E s := by
  unfold visit
  by_cases hs : Skipped kend ptr.toNat
  · rw [if_pos hs, wp_ite, wp_ite]
    split_ifs with h0 hc
    · have h0' : addr.toNat = 0 := haddr (by rw [h0]; rfl)
      refine ⟨h.chain.congr fun f hf => ?_, h.count⟩
      have hf0 : f ≠ addr.toNat / 4096 := by
        rw [h0']
        exact h.chain.ne_zero hf
      exact congrFun (Memory.set_ne hf0) 0
    · exact h
    · exact absurd (skipped_iff.mp hs) (by tauto)
  · have hns := skipped_iff.not.mp hs
    rw [if_neg hs, if_neg (fun e => hns (.inl e)), if_neg (fun e => hns (.inr e))]
    have hf0 : ptr.toNat / 4096 ≠ 0 := by
      have := hal hs
      have h0 : ptr.toNat ≠ 0 := fun e => hs (.inl e)
      omega
    unfold frameFree
    rw [if_neg (not_not.mpr (and_mask_eq_zero.mpr (hal hs)))]
    refine ⟨⟨?_, hf0, ?_⟩, congrArg (· + 1) h.count⟩
    · have := hal hs
      show ptr.toNat = _
      omega
    · show FreeList (s.mem.set (ptr.toNat / 4096) 0 s.lastFreePage.toNat)
        (s.mem.set (ptr.toNat / 4096) 0 s.lastFreePage.toNat (ptr.toNat / 4096) 0) free
      rw [Memory.set_self]
      refine h.chain.congr fun f hf => ?_
      have hne : f ≠ ptr.toNat / 4096 := fun e => hnew hs (e ▸ hf)
      rw [Memory.set_ne hne]

/-- A page that the loop has visited, and gone on, was skipped or aligned. -/
theorem visit_counts :
    wp (visit kend addr ptr) (fun _ s' => (Skipped kend ptr.toNat → s'.numPages = s.numPages) ∧
    (¬Skipped kend ptr.toNat → ptr.toNat % 4096 = 0 ∧ s'.numPages = s.numPages + 1))
      (fun _ _ => True) s := by
  unfold visit frameFree
  rw [skipped_iff]
  simp only [wp_bind, wp_ite, wp_halt, wp_modify, wp_pure, and_mask_eq_zero, ne_eq]
  split_ifs with h0 hc hm <;> simp_all

/-- The number of pages that start in a region. -/
def pages (n : ℕ) : ℕ := (n + 4095) / 4096

/-- A regular region: its frames are added to the list. -/
theorem regionLoop_holds {free : List ℕ} (hn : addr.toNat + length.toNat ≤ 4294967296)
    (hlen : length.toNat ≤ 4294963200)
    (hfuel : pages length.toNat < fuel)
    (hal : ∀ k, 4096 * k < length.toNat → ¬Skipped kend (addr.toNat + 4096 * k) →
      addr.toNat % 4096 = 0)
    (hnew : ((freed kend addr.toNat (pages length.toNat)).reverse ++ free).Nodup)
    (h : Holds s free) :
    wp (reserveRegion kend addr length fuel)
      (fun _ s' => Holds s' ((freed kend addr.toNat (pages length.toNat)).reverse ++ free))
      E s := by
  refine wp_regionLoop (I := fun k s => Holds s ((freed kend addr.toNat k).reverse ++ free)) hn hlen
    (fun k s ptr hk hptr hI => ?_) 0 (Nat.zero_le _) ?_
    (fun hf => absurd hfuel (Nat.not_lt.mpr hf)) h
  · have hnotMem : ¬Skipped kend ptr.toNat → ptr.toNat / 4096 ∉ (freed kend addr.toNat k).reverse ++
      free := fun hs => by
      have hle : k + 1 ≤ pages length.toNat := by
        unfold pages
        omega
      have hsub := ((freed_mono kend addr.toNat hle).sublist.reverse).append_right free
      have hnd := hnew.sublist hsub
      rw [hptr] at hs ⊢
      rw [freed_succ hs, List.reverse_append, List.reverse_singleton, List.singleton_append,
        List.cons_append] at hnd
      exact (List.nodup_cons.mp hnd).1
    have haligned : ¬Skipped kend ptr.toNat → ptr.toNat % 4096 = 0 := fun hs => by
      have := hal k hk (hptr ▸ hs)
      omega
    refine (visit_holds hI (by omega) haligned hnotMem).mono (fun _ s' hs' => ?_) fun _ _ => id
    rw [hptr] at hs'
    by_cases hs : Skipped kend (addr.toNat + 4096 * k)
    · rw [if_pos hs] at hs'
      rwa [freed_succ_of_skipped hs]
    · rw [if_neg hs] at hs'
      rwa [freed_succ hs, List.reverse_append, List.reverse_singleton, List.singleton_append,
        List.cons_append]
  · have := addr.toNat_lt
    omega

/-- A region that the loop has left: it was not too long, its pages were skipped or aligned, and
their frames were counted. -/
theorem regionLoop_counts (hn : addr.toNat + length.toNat ≤ 4294967296) :
    wp (reserveRegion kend addr length fuel)
    (fun _ s' => length.toNat ≤ 4294963200 ∧
      (∀ k, 4096 * k < length.toNat → ¬Skipped kend (addr.toNat + 4096 * k) →
        addr.toNat % 4096 = 0) ∧
      s'.numPages = s.numPages + (freed kend addr.toNat (pages length.toNat)).length)
        (fun _ _ => True) s := by
  by_cases hlen : length.toNat ≤ 4294963200
  · refine (wp_regionLoop
      (I := fun k s' => (∀ j < k, ¬Skipped kend (addr.toNat + 4096 * j) → addr.toNat % 4096 = 0) ∧
      s'.numPages = s.numPages + (freed kend addr.toNat k).length) hn hlen
      (fun k t ptr hk hptr hI => ?_) 0 (Nat.zero_le _) ?_ (fun _ _ => trivial)
        ⟨fun j hj => absurd hj (Nat.not_lt_zero j), rfl⟩).mono
      (fun _ s' hs' => ⟨hlen, fun k hk => hs'.1 k ?_, hs'.2⟩) fun _ _ => id
    · refine visit_counts.mono (fun _ s' hs' => ?_) fun _ _ => id
      rw [hptr] at hs'
      by_cases hs : Skipped kend (addr.toNat + 4096 * k)
      · rw [freed_succ_of_skipped hs, hs'.1 hs]
        refine ⟨fun j hj hns => ?_, hI.2⟩
        rcases Nat.lt_succ_iff_lt_or_eq.mp hj with hj | rfl
        · exact hI.1 j hj hns
        · exact absurd hs hns
      · obtain ⟨hal, hnum⟩ := hs'.2 hs
        rw [freed_succ hs, hnum, hI.2, List.length_append]
        exact ⟨fun j _ _ => by omega, rfl⟩
    · have := addr.toNat_lt
      omega
    · omega
  · refine (regionLoop_hangs (by omega) ?_).mono (fun _ _ h => h.elim) fun _ _ => id
    rw [UInt32.toNat_sub]
    have := addr.toNat_lt
    omega

end

/-! ### The entries -/

section

variable {kend : UInt32} {mm : MemoryMap} {s : State} {E : Option Halt → State → Prop} {fuel : ℕ}

/-- The frames that the loop frees for an entry. -/
def MemoryMap.frames (kend : UInt32) (mm : MemoryMap) : List ℕ :=
  if mm.type.toNat % 256 = 1 then freed kend mm.base (pages mm.length) else []

/-- What is kept of a low entry. -/
theorem MemoryMap.Low.minfo (h : mm.Low) : mm.minfo.length.toUInt32.toNat = mm.length ∧
    (mm.length ≠ 0 → mm.minfo.base.toUInt32.toNat = mm.base) := by
  obtain ⟨hlen, hend⟩ := h
  unfold MemoryMap.length at *
  unfold MemoryMap.base at *
  have hl : mm.lengthHigh = 0 := by
    rw [← UInt32.toNat_inj]
    show mm.lengthHigh.toNat = 0
    omega
  refine ⟨?_, fun hne => ?_⟩
  · simp [MemoryMap.minfo, hl]
  · have hb : mm.baseAddrHigh = 0 := by
      rw [← UInt32.toNat_inj]
      show mm.baseAddrHigh.toNat = 0
      omega
    simp [MemoryMap.minfo, hb]

theorem MemoryMap.Low.freed_eq (h : mm.Low) :
    freed kend mm.minfo.base.toUInt32.toNat (pages mm.minfo.length.toUInt32.toNat) =
      freed kend mm.base (pages mm.length) := by
  rw [h.minfo.1]
  by_cases h0 : mm.length = 0
  · rw [h0]
    rfl
  · rw [h.minfo.2 h0]

theorem MemoryMap.Low.fits (h : mm.Low) :
    mm.minfo.base.toUInt32.toNat + mm.minfo.length.toUInt32.toNat ≤ 4294967296 := by
  rw [h.minfo.1]
  by_cases h0 : mm.length = 0
  · have := mm.minfo.base.toUInt32.toNat_lt
    omega
  · rw [h.minfo.2 h0]
    exact h.2

theorem minfo_type : mm.minfo.type = 1 ↔ mm.type.toNat % 256 = 1 := by
  rw [← UInt8.toNat_inj]
  simp [MemoryMap.minfo]

theorem MemoryMap.Low.pages_le (h : mm.Low) : pages mm.length ≤ 1048576 := by
  have := h.1
  unfold pages
  omega

/-- The frames of regular entries are added to the list. -/
theorem reserveLoop_holds (hfuel : 1048576 < fuel) (mmap : List MemoryMap) {free : List ℕ}
    (hreg : ∀ mm ∈ mmap, mm.type.toNat % 256 = 1 → mm.Regular kend)
    (hnew : ((mmap.flatMap (·.frames kend)).reverse ++ free).Nodup) (h : Holds s free) :
    wp (reserveLoop kend fuel (mmap.map (·.minfo)))
      (fun _ s' => Holds s' ((mmap.flatMap (·.frames kend)).reverse ++ free)) E s := by
  induction mmap generalizing s free with
  | nil => exact h
  | cons mm mmap ih =>
    rw [List.flatMap_cons, List.reverse_append, List.append_assoc] at hnew ⊢
    have hrest := fun t => ih (s := t) (fun mm' hm => hreg mm' (List.mem_cons_of_mem _ hm)) hnew
    rw [List.map_cons, reserveLoop]
    by_cases ht : mm.type.toNat % 256 = 1
    · rw [if_pos (minfo_type.mpr ht), wp_bind]
      obtain ⟨hlow, hlen, hpages⟩ := hreg mm (List.mem_cons_self ..) ht
      have hframes : mm.frames kend = freed kend mm.base (pages mm.length) := if_pos ht
      rw [hframes] at hnew hrest ⊢
      rw [← hlow.freed_eq] at hnew hrest ⊢
      refine (regionLoop_holds hlow.fits ?_ ?_ (fun k hk hs => ?_) hnew.of_append_right h).mono
        (fun _ s' => hrest s') fun _ _ => id
      · rw [hlow.minfo.1]
        exact hlen
      · rw [hlow.minfo.1]
        exact Nat.lt_of_le_of_lt hlow.pages_le hfuel
      · rw [hlow.minfo.1] at hk
        rw [hlow.minfo.2 (by omega)] at hs ⊢
        exact ((hpages k hk).resolve_left hs).2.1
    · rw [if_neg (minfo_type.not.mpr ht)]
      have hframes : mm.frames kend = [] := if_neg ht
      rw [hframes] at hrest ⊢
      exact hrest s h

/-- Low entries that the loop has gone through: their frames were counted. -/
theorem reserveLoop_counts (mmap : List MemoryMap)
    (hlow : ∀ mm ∈ mmap, mm.type.toNat % 256 = 1 → mm.Low) :
    wp (reserveLoop kend fuel (mmap.map (·.minfo)))
      (fun _ s' => s'.numPages = s.numPages + (mmap.flatMap (·.frames kend)).length ∧
        ∀ mm ∈ mmap, mm.type.toNat % 256 = 1 → mm.length ≤ 4294963200 ∧
          ∀ k, 4096 * k < mm.length → ¬Skipped kend (mm.base + 4096 * k) → mm.base % 4096 = 0)
            (fun _ _ => True) s := by
  induction mmap generalizing s with
  | nil => exact ⟨rfl, by simp⟩
  | cons mm mmap ih =>
    have hrest := fun t => ih (s := t) fun mm' hm => hlow mm' (List.mem_cons_of_mem _ hm)
    rw [List.map_cons, reserveLoop]
    by_cases ht : mm.type.toNat % 256 = 1
    · rw [if_pos (minfo_type.mpr ht), wp_bind]
      have hl := hlow mm (List.mem_cons_self ..) ht
      have hframes : mm.frames kend = freed kend mm.base (pages mm.length) := if_pos ht
      refine (regionLoop_counts hl.fits).mono (fun _ t ⟨hlen, hal, hnum⟩ => ?_) fun _ _ => id
      refine (hrest t).mono (fun _ s' ⟨hnum', hall⟩ => ⟨?_, ?_⟩) fun _ _ => id
      · rw [hnum', hnum, hl.freed_eq, List.flatMap_cons, hframes, List.length_append, Nat.add_assoc]
      · rw [hl.minfo.1] at hlen hal
        intro mm' hm ht'
        rcases List.mem_cons.mp hm with rfl | hm
        · refine ⟨hlen, fun k hk hs => ?_⟩
          have hbase := hl.minfo.2 (by omega)
          rw [hbase] at hal
          exact hal k hk hs
        · exact hall mm' hm ht'
    · rw [if_neg (minfo_type.not.mpr ht)]
      have hframes : mm.frames kend = [] := if_neg ht
      refine (hrest s).mono (fun _ s' ⟨hnum', hall⟩ => ⟨?_, ?_⟩) fun _ _ => id
      · rw [hnum', List.flatMap_cons, hframes, List.nil_append]
      · intro mm' hm ht'
        rcases List.mem_cons.mp hm with rfl | hm
        · exact absurd ht' ht
        · exact hall mm' hm ht'

theorem type_and_eq_zero : mm.type &&& 7 = 0 ↔ mm.type.toNat % 8 = 0 := by
  rw [← UInt32.toNat_inj, UInt32.toNat_and]
  show mm.type.toNat &&& (2 ^ 3 - 1) = 0 ↔ _
  rw [Nat.and_two_pow_sub_one_eq_mod]

/-- The first loop copies the entries, if none has a type that it never leaves. -/
theorem wp_mmapLoop {after : MemoryMap} {mmap : List MemoryMap} (hne : mmap ≠ [])
    (hlen : s.minfo.length + mmap.length ≤ 32)
    (hE : (∃ mm ∈ mmap, mm.type.toNat % 8 = 0) ∨ fuel < mmap.length → ∀ s, E none s) :
    wp (mmapLoop after fuel mmap) (fun _ s' => (∀ mm ∈ mmap, mm.type.toNat % 8 ≠ 0) ∧
      s' = { s with minfo := s.minfo ++ mmap.map (·.minfo) }) E s := by
  induction fuel generalizing mmap s with
  | zero => exact hE (.inr (List.length_pos_iff.mpr hne)) s
  | succ fuel ih =>
    obtain ⟨mm, rest, rfl⟩ := List.exists_cons_of_ne_nil hne
    have hlen' : s.minfo.length + 1 + rest.length ≤ 32 := by
      rw [List.length_cons] at hlen
      omega
    simp only [mmapLoop, List.headD_cons, type_and_eq_zero, if_pos hne]
    by_cases ht : mm.type.toNat % 8 = 0
    · rw [if_pos ht]
      exact ih hne hlen fun _ => hE (.inl ⟨mm, List.mem_cons_self .., ht⟩)
    · rw [if_neg ht]
      have hpanic : ¬(s.minfo ++ [mm.minfo]).length > 32 := by
        rw [List.length_append, List.length_singleton]
        omega
      simp only [wp_bind, wp_modify, wp_read, wp_ite, if_neg hpanic, wp_pure]
      by_cases hrest : (mm :: rest).tail ≠ []
      · rw [if_pos hrest]
        refine (ih hrest ?_ fun h => hE ?_).mono (fun _ s' hs' => ⟨?_, ?_⟩) fun _ _ => id
        · rw [List.length_append, List.length_singleton]
          exact hlen'
        · rcases h with ⟨mm', hm, ht'⟩ | h
          · exact .inl ⟨mm', List.mem_cons_of_mem _ hm, ht'⟩
          · exact .inr (Nat.succ_lt_succ h)
        · exact List.forall_mem_cons.mpr ⟨ht, hs'.1⟩
        · rw [hs'.2, List.map_cons, List.append_assoc, List.singleton_append]
          rfl
      · rw [if_neg hrest]
        have : rest = [] := not_not.mp hrest
        subst this
        exact ⟨by simpa using ht, rfl⟩

end

/-! ### The list of free frames -/

section

variable {kend : UInt32} {mmap : List MemoryMap} {mm : MemoryMap} {mb : Multiboot} {mem : Memory}
    {f : ℕ}

/-- A usable entry has the whole frame. -/
def MemoryMap.Whole (kend : UInt32) (mm : MemoryMap) (f : ℕ) : Prop :=
  ¬Skipped kend (4096 * f) ∧ mm.type = 1 ∧ mm.base ≤ 4096 * f ∧
    4096 * f + 4096 ≤ mm.base + mm.length

theorem wanted_iff : Wanted kend mmap f ↔ 4096 * f < 4294967296 ∧ ∃ mm ∈ mmap, mm.Whole kend f := by
  unfold Wanted MemoryMap.Whole
  grind

/-- A regular entry gives its whole frames, and no others. -/
theorem MemoryMap.Regular.frames (h : mm.Regular kend) (ht : mm.type.toNat % 256 = 1)
    (hf : f ∈ mm.frames kend) :
    mm.Whole kend f := by
  rw [MemoryMap.frames, if_pos ht, mem_freed] at hf
  obtain ⟨k, hk, hs, rfl⟩ := hf
  have hlt : 4096 * k < mm.length := by
    unfold pages at hk
    omega
  obtain ⟨htype, hal, hle⟩ := (h.2.2 k hlt).resolve_left hs
  have hpage : 4096 * ((mm.base + 4096 * k) / 4096) = mm.base + 4096 * k := by omega
  refine ⟨by rwa [hpage], htype, by omega, by omega⟩

/-- The whole frames of an entry are among those that the loop frees, if it frees aligned pages
only. -/
theorem MemoryMap.Whole.mem_frames (h : mm.Whole kend f) (hal : ∀ k, 4096 * k < mm.length →
    ¬Skipped kend (mm.base + 4096 * k) → mm.base % 4096 = 0) : f ∈ mm.frames kend := by
  obtain ⟨hs, ht, hlo, hhi⟩ := h
  have hbase : mm.base % 4096 = 0 := by
    by_contra hne
    -- The pages before and after the frame are both skipped, so that the frame is, too.
    have hlo' := hal ((4096 * f - mm.base) / 4096) (by omega)
    have hhi' := hal ((4096 * f - mm.base) / 4096 + 1) (by omega)
    unfold Skipped at hs hlo' hhi'
    omega
  rw [MemoryMap.frames, if_pos (by rw [ht]; rfl), mem_freed]
  have hpage : mm.base + 4096 * (f - mm.base / 4096) = 4096 * f := by omega
  refine ⟨f - mm.base / 4096, ?_, ?_, ?_⟩
  · unfold pages
    omega
  · rwa [hpage]
  · omega

theorem MemoryMap.frames_nodup : (mm.frames kend).Nodup := by
  unfold MemoryMap.frames
  split_ifs
  · exact freed_nodup _
  · exact List.nodup_nil

theorem MemoryMap.type_of_mem_frames (h : f ∈ mm.frames kend) : mm.type.toNat % 256 = 1 := by
  by_contra ht
  rw [MemoryMap.frames, if_neg ht] at h
  cases h

/-- Regular entries give the frames to be free, once each. -/
theorem Regular.frames (h : Regular kend mmap) (hap : Apart mmap) :
    (mmap.flatMap (·.frames kend)).Nodup ∧ ∀ f, f ∈ mmap.flatMap (·.frames kend) ↔
      Wanted kend mmap f := by
  have hwhole : ∀ mm ∈ mmap, ∀ f ∈ mm.frames kend, mm.Low ∧ mm.Whole kend f := fun mm hm f hf =>
    have ht := MemoryMap.type_of_mem_frames hf
    have hreg := (h.2 mm hm).2 ht
    ⟨hreg.1, hreg.frames ht hf⟩
  refine ⟨List.nodup_flatMap.mpr ⟨fun mm _ => mm.frames_nodup, ?_⟩, fun f => ?_⟩
  · refine hap.imp_of_mem fun {mm mm'} hm hm' hxs f hf hf' => ?_
    obtain ⟨-, hw⟩ := hwhole mm hm f hf
    obtain ⟨-, hw'⟩ := hwhole mm' hm' f hf'
    obtain ⟨-, ht, hlo, hhi⟩ := hw
    obtain ⟨-, ht', hlo', hhi'⟩ := hw'
    exact hxs ht ht' (4096 * f) ⟨⟨hlo, by omega⟩, hlo', by omega⟩
  · rw [List.mem_flatMap, wanted_iff]
    constructor
    · rintro ⟨mm, hm, hf⟩
      obtain ⟨hlow, hw⟩ := hwhole mm hm f hf
      have := hlow.2
      have := hw.2.2.2
      exact ⟨by omega, mm, hm, hw⟩
    · rintro ⟨-, mm, hm, hw⟩
      have hreg := (h.2 mm hm).2 (by rw [hw.2.1]; rfl)
      exact ⟨mm, hm, hw.mem_frames fun k hk hs => ((hreg.2.2 k hk).resolve_left hs).2.1⟩

theorem wp_getKernelInfo {fuel : ℕ} {E : Option Halt → State → Prop} (hflags : mb.flags ≠ 0)
    (hne : mb.mmap ≠ []) (hlen : mb.mmap.length ≤ 32)
    (hE : (∃ mm ∈ mb.mmap, mm.type.toNat % 8 = 0) ∨ fuel < mb.mmap.length → ∀ s, E none s) :
    wp (getKernelInfo mbootMagic mb fuel) (fun _ s' => (∀ mm ∈ mb.mmap, mm.type.toNat % 8 ≠ 0) ∧
      s' = { initial mem with minfo := mb.mmap.map (·.minfo) }) E (initial mem) := by
  unfold getKernelInfo
  simp only [ne_eq, not_true_eq_false, if_false, hflags, not_false_eq_true, if_true]
  refine (wp_mmapLoop hne ?_ hE).mono (fun _ s' hs' => hs') fun _ _ => id
  show 0 + _ ≤ 32
  omega

/-- The kernel starts as it should with a regular map. -/
theorem frees_of_regular (hflags : mb.flags ≠ 0) (hlen : mb.mmap.length ≤ 32) (hap : Apart mb.mmap)
    (h : Regular kend mb.mmap) :
    Frees kend mb mem := by
  obtain ⟨hnodup, hmem⟩ := h.frames hap
  have hboot : wp (boot mbootMagic mb kend 1048577)
    (fun _ s' => Holds s' (mb.mmap.flatMap (·.frames kend)).reverse)
    (fun _ _ => False) (initial mem) := by
    unfold boot reserveMemory
    rw [wp_bind]
    refine (wp_getKernelInfo hflags h.1 hlen fun hbad => ?_).mono
      (fun _ s ⟨_, hs⟩ => ?_) fun _ _ => id
    · rcases hbad with ⟨mm, hm, ht⟩ | hbad
      · exact absurd ht (h.2 mm hm).1
      · omega
    · subst hs
      simp only [wp_bind, wp_modify, wp_read]
      have hempty : Holds { initial mem with minfo := mb.mmap.map (·.minfo) } [] := ⟨rfl, rfl⟩
      rw [← List.nodup_reverse, ← List.append_nil (List.reverse _)] at hnodup
      rw [← List.append_nil (List.reverse _)]
      exact reserveLoop_holds (by omega) mb.mmap (fun mm hm => (h.2 mm hm).2) hnodup hempty
  obtain ⟨⟨⟩, s, hs, hholds⟩ := hboot.returns
  refine ⟨_, s, hs, _, hholds.chain, List.nodup_reverse.mpr hnodup, fun f => ?_, hholds.count⟩
  rw [List.mem_reverse]
  exact hmem f

/-- A low map with which the kernel starts as it should is regular. -/
theorem regular_of_frees (hflags : mb.flags ≠ 0) (hlen : mb.mmap.length ≤ 32) (hne : mb.mmap ≠ [])
    (hlow : ∀ mm ∈ mb.mmap, mm.type.toNat % 256 = 1 → mm.Low) (h : Frees kend mb mem) :
    Regular kend mb.mmap := by
  obtain ⟨fuel, s, hs, free, -, hnodup, hmem, hcount⟩ := h
  have hboot :
    wp (boot mbootMagic mb kend fuel) (fun _ s' => (∀ mm ∈ mb.mmap, mm.type.toNat % 8 ≠ 0) ∧
      s'.numPages = (mb.mmap.flatMap (·.frames kend)).length ∧
        ∀ mm ∈ mb.mmap, mm.type.toNat % 256 = 1 → mm.length ≤ 4294963200 ∧
          ∀ k, 4096 * k < mm.length → ¬Skipped kend (mm.base + 4096 * k) → mm.base % 4096 = 0)
      (fun _ _ => True) (initial mem) := by
    unfold boot reserveMemory
    rw [wp_bind]
    refine (wp_getKernelInfo hflags hne hlen fun _ _ => trivial).mono
      (fun _ s ⟨htypes, hs⟩ => ?_) fun _ _ => id
    subst hs
    simp only [wp_bind, wp_modify, wp_read]
    refine (reserveLoop_counts mb.mmap hlow).mono
      (fun _ s' ⟨hnum, hall⟩ => ⟨htypes, ?_, hall⟩) fun _ _ => id
    rw [hnum]
    exact Nat.zero_add _
  obtain ⟨htypes, hnum, hall⟩ := hboot.ok hs
  have hsub : free ⊆ mb.mmap.flatMap (·.frames kend) := fun f hf => by
    obtain ⟨-, mm, hm, hw⟩ := wanted_iff.mp ((hmem f).mp hf)
    exact List.mem_flatMap.mpr ⟨mm, hm, hw.mem_frames (hall mm hm (by rw [hw.2.1]; rfl)).2⟩
  have hperm := (List.subperm_of_subset hnodup hsub).perm_of_length_le (by rw [← hnum, hcount])
  have hapart := (List.nodup_flatMap.mp (hperm.nodup_iff.mp hnodup)).2
  have : Std.Symm (Function.onFun List.Disjoint fun mm : MemoryMap => mm.frames kend) :=
    ⟨fun _ _ h _ ha hb => h hb ha⟩
  refine ⟨hne, fun mm hm =>
    ⟨htypes mm hm, fun ht => ⟨hlow mm hm ht, (hall mm hm ht).1, fun k hk => ?_⟩⟩⟩
  by_cases hs : Skipped kend (mm.base + 4096 * k)
  · exact .inl hs
  · right
    have hf : (mm.base + 4096 * k) / 4096 ∈ mm.frames kend := by
      rw [MemoryMap.frames, if_pos ht, mem_freed]
      refine ⟨k, ?_, hs, rfl⟩
      unfold pages
      omega
    obtain ⟨-, mm', hm', hw⟩ :=
      wanted_iff.mp ((hmem _).mp (hperm.mem_iff.mpr (List.mem_flatMap.mpr ⟨mm, hm, hf⟩)))
    have hf' := hw.mem_frames (hall mm' hm' (by rw [hw.2.1]; rfl)).2
    -- A frame that two entries give would be counted twice.
    have heq : mm = mm' := by
      by_contra hne'
      exact hapart.forall hm hm' hne' hf hf'
    subst heq
    have hbase := (hall mm hm ht).2 k hk hs
    have := hw.2.2.2
    exact ⟨hw.2.1, hbase, by omega⟩

/-- **The memory map becomes the list of free frames** exactly when it is regular, for the maps
whose entries end at 4 GB or below; and always when it is regular. -/
theorem memory_map_freed (hflags : mb.flags ≠ 0) (hlen : mb.mmap.length ≤ 32)
    (hap : Apart mb.mmap) :
    (Regular kend mb.mmap → Frees kend mb mem) ∧
      (mb.mmap ≠ [] → (∀ mm ∈ mb.mmap, mm.type.toNat % 256 = 1 → mm.Low) → Frees kend mb mem →
        Regular kend mb.mmap) :=
  ⟨frees_of_regular hflags hlen hap, regular_of_frees hflags hlen⟩

end

/-- A map with the conventional memory up to a page, and the memory from 1 MB on. -/
theorem memory_map_freed_aligned :
    Frees 0x150000
      ⟨0x40, 0, [⟨0, 0, 0x9F000, 0, 1⟩, ⟨0x9F000, 0, 0x61000, 0, 2⟩,
        ⟨0x100000, 0, 0x3F00000, 0, 1⟩], ⟨0, 0, 0, 0, 0⟩⟩ fun _ _ => 0 := by
  refine (memory_map_freed (by decide) (by decide) ?_).1 ⟨by simp, ?_⟩
  · simp [Apart, MemoryMap.base, MemoryMap.length]
    omega
  · simp only [List.forall_mem_cons, MemoryMap.Regular, MemoryMap.Low, MemoryMap.base,
      MemoryMap.length]
    refine ⟨⟨by decide, fun _ => ⟨by decide, by decide, fun k hk => .inr ⟨trivial, by decide, ?_⟩⟩⟩,
      ⟨by decide, fun h => absurd h (by decide)⟩,
      ⟨by decide, fun _ => ⟨by decide, by decide, fun k hk => .inr ⟨trivial, by decide, ?_⟩⟩⟩,
      by simp⟩
    · simp only [UInt32.reduceToNat] at hk ⊢
      omega
    · simp only [UInt32.reduceToNat] at hk ⊢
      omega

/-- **A frame that is not all there**: with 639 KB of conventional memory the frame of the last 3
KB is free. -/
theorem partial_frame_freed : ∃ mb : Multiboot, mb.flags ≠ 0 ∧ mb.mmap.length ≤ 32 ∧ Apart mb.mmap ∧
    ¬Frees 0x150000 mb fun _ _ => 0 := by
  refine ⟨⟨0x40, 0, [⟨0, 0, 0x9FC00, 0, 1⟩],
    ⟨0, 0, 0, 0, 0⟩⟩, by decide, by decide, by simp [Apart], fun h => ?_⟩
  have hreg := regular_of_frees (by decide) (by decide) (by simp)
    (by simp [MemoryMap.Low, MemoryMap.base, MemoryMap.length]) h
  have hpage := ((hreg.2 _ (List.mem_singleton_self _)).2 rfl).2.2 0x9F
  revert hpage
  decide

end Cosiris.Mem.Boot
