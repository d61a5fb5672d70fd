import Cosiris.Lib.Bytes
import Cosiris.Lib.Prog
import Mathlib.Algebra.Order.Group.Nat

/-!
# Loading a program

`sys_exec` of `sysproc.c`, from the file to the last segment: the old image is freed, and the
segments that the file asks for are mapped, cleared and read. The addresses are those of the task,
32 bits wide; a page has a frame of its own. An access to a page that is not mapped ends the task.
What is written is the file's affair: the code compares the end of a segment, which may wrap
around, with the end of the user image, maps one page for each 4096 bytes and one more, and clears
to the end of the last one. -/

namespace Cosiris.Exec

open Prog

/-- `USER_CODE_START_ADDR`. -/
def userCodeStart : ℕ := 0x10000000

/-- `UHEAP_START`. -/
def uheapStart : ℕ := 0x20000000

/-- The fields of the ELF header that are used. -/
structure ElfHeader where
  type : ℕ
  phoffs : ℕ
  phentsize : ℕ
  phnum : ℕ

/-- The fields of a program header that are used. -/
structure ProgHeader where
  type : ℕ
  offs : ℕ
  vaddr : ℕ
  filesz : ℕ
  memsz : ℕ
  align : ℕ
  vaddr_lt : vaddr < 2 ^ 32
  filesz_lt : filesz < 2 ^ 32
  memsz_lt : memsz < 2 ^ 32

/-- The memory of the task: which pages are mapped, the bytes in them, and the end of the heap.
`fresh` are the pages that were mapped for a segment, and `written` the bytes that were written,
while loading. -/
structure Image where
  mapped : ℕ → Bool
  mem : ℕ → UInt8
  heapEnd : ℕ
  fresh : ℕ → Bool
  written : ℕ → Bool

/-- How `sys_exec` ends before it enters user mode: it returns -1, it ends the task, or the kernel
panics. -/
inductive Halt where
  | refused
  | killed
  | panic

abbrev ExecM := Prog Halt Image

/-! ### The file -/

/-- The number of `n` bytes at index `i`. -/
def field (l : List UInt8) (i n : ℕ) : ℕ := leVal ((l.drop i).take n)

theorem field_lt (l : List UInt8) (i n : ℕ) : field l i n < 256 ^ n := by
  have h := leVal_lt ((l.drop i).take n)
  have hle : ((l.drop i).take n).length ≤ n := List.length_take_le _ _
  exact lt_of_lt_of_le h (Nat.pow_le_pow_right (by decide) hle)

def elfHeader (l : List UInt8) : ElfHeader :=
  ⟨field l 16 2, field l 28 4, field l 42 2, field l 44 2⟩

def progHeader (l : List UInt8) : ProgHeader where
  type := field l 0 4
  offs := field l 4 4
  vaddr := field l 8 4
  filesz := field l 16 4
  memsz := field l 20 4
  align := field l 28 4
  vaddr_lt := field_lt l 8 4
  filesz_lt := field_lt l 16 4
  memsz_lt := field_lt l 20 4

/-- `fs_read` of `n` bytes of a file. When the end of what is asked for wraps around it is not cut
at the end of the file, and `block_map` panics. -/
def fsRead (file : List UInt8) (offs n : ℕ) : ExecM (List UInt8) :=
  if file.length < offs then pure []
  else if file.length < (offs + n) % 2 ^ 32 then pure (file.drop offs)
  else if offs + n < 2 ^ 32 then pure ((file.drop offs).take n)
  else halt .panic

/-! ### Memory -/

/-- How far `x` is from address `a`. -/
def dist (a x : ℕ) : ℕ := (x + (2 ^ 32 - a)) % 2 ^ 32

/-- The address is one of the `n` from `a` on. -/
def within (a n x : ℕ) : Bool := decide (x < 2 ^ 32 ∧ dist a x < n)

/-- `free_page`. -/
def freePage (p : ℕ) (s : Image) : Image :=
  { s with mapped := Function.update s.mapped p false,
           mem := fun x => if x / 4096 = p then 0 else s.mem x }

/-- `map` of page `p` to a frame with the bytes `stale` in it. -/
def map (stale : ℕ → UInt8) (p : ℕ) (s : Image) : Image :=
  { s with
    mapped := Function.update s.mapped p true
    mem := fun x => if x / 4096 = p then stale x else s.mem x
    fresh := Function.update s.fresh p true }

/-- Write `n` bytes from address `a` on. -/
def store (a n : ℕ) (v : ℕ → UInt8) : ExecM Unit := do
  let s ← read
  if ∀ i, i < (a % 4096 + n + 4095) / 4096 → s.mapped ((a / 4096 + i) % 2 ^ 20) = true then
    modify fun s => { s with
      mem := fun x => if within a n x then v (dist a x) else s.mem x
      written := fun x => s.written x || within a n x }
  else halt .killed

/-! ### The old image -/

/-- The loop that frees the old image, from page `p` on. -/
def freeImage : ℕ → ℕ → ExecM Unit
  | 0, _ => pure ()
  | n + 1, p => do
    let s ← read
    if s.mapped p then do
      modify (freePage p)
      freeImage n (p + 1)
    else pure ()

/-- The loop that frees the old heap. -/
def freeHeap : ExecM Unit := do
  let s ← read
  upTo (fun i => do
    let s ← read
    if s.mapped (uheapStart / 4096 + i) then modify (freePage (uheapStart / 4096 + i))
    else halt .panic)
    ((s.heapEnd - uheapStart + 4095) / 4096)
  modify fun s => { s with heapEnd := uheapStart }

/-! ### The segments -/

/-- `npgs`. -/
def npgs (h : ProgHeader) : ℕ := h.memsz / h.align + 1

/-- Map the pages of a segment. -/
def mapPages (stale : ℕ → UInt8) (h : ProgHeader) : ExecM Unit :=
  upTo (fun pg => do
    let vpage := (h.vaddr + pg * h.align) % 2 ^ 32
    let s ← read
    if s.mapped (vpage / 4096) then pure () else modify (map stale (vpage / 4096))) (npgs h)

/-- Clear from the page in which the file ends to the end of the last page. -/
def clearBss (h : ProgHeader) : ExecM Unit :=
  upTo (fun i => store ((h.vaddr + (h.filesz / h.align + i) * h.align) % 2 ^ 32) h.align fun _ => 0)
    (npgs h - h.filesz / h.align)

/-- Read the bytes of a segment. -/
def loadImage (file : List UInt8) (h : ProgHeader) : ExecM Unit := do
  let bs ← fsRead file h.offs h.filesz
  if bs.length ≠ h.filesz then halt .killed
  else store h.vaddr h.filesz fun k => bs.getD k 0

/-- The body of the loop over the program headers. -/
def loadSegment (stale : ℕ → UInt8) (file : List UInt8) (h : ProgHeader) : ExecM Unit :=
  if h.type % 2 = 1 ∧ 0 < h.filesz then
    if h.vaddr < userCodeStart then halt .killed
    else if uheapStart < (h.vaddr + h.memsz) % 2 ^ 32 then halt .killed
    else if h.align ≠ 4096 then halt .killed
    else do
      mapPages stale h
      clearBss h
      loadImage file h
  else pure ()

/-- Where program header `i` is. -/
def ElfHeader.headerAt (elf : ElfHeader) (i : ℕ) : ℕ := (elf.phoffs + i * elf.phentsize) % 2 ^ 32

/-- The loop over the program headers. -/
def loadSegments (stale : ℕ → UInt8) (file : List UInt8) (elf : ElfHeader) : ExecM Unit :=
  upTo (fun i => do
    let l ← fsRead file (elf.headerAt i) 32
    if l.length ≠ 32 then halt .killed else loadSegment stale file (progHeader l)) elf.phnum

/-- `sys_exec`, up to the end of the loop over the program headers. -/
def sysExec (stale : ℕ → UInt8) (file : List UInt8) : ExecM Unit := do
  let l ← fsRead file 0 52
  if l.length ≠ 52 then halt .refused
  else if l.take 4 ≠ [0x7F, 0x45, 0x4C, 0x46] then halt .refused
  else if (elfHeader l).type ≠ 2 then halt .refused
  else do
    freeImage ((uheapStart - userCodeStart) / 4096) (userCodeStart / 4096)
    freeHeap
    loadSegments stale file (elfHeader l)

/-! ### What is loaded -/

/-- The first program headers of a file. -/
def headers (file : List UInt8) (n : ℕ) : List ProgHeader :=
  (List.range n).map fun i =>
    progHeader ((file.drop ((elfHeader (file.take 52)).headerAt i)).take 32)

/-- The segments that are loaded. -/
def loads (hs : List ProgHeader) : List ProgHeader :=
  hs.filter fun h => h.type % 2 = 1 ∧ 0 < h.filesz

/-- The segments of a file that are loaded. -/
def segments (file : List UInt8) : List ProgHeader :=
  loads (headers file (elfHeader (file.take 52)).phnum)

/-- Byte `k` of a segment: that of the file, or 0. -/
def ProgHeader.byte (file : List UInt8) (h : ProgHeader) (k : ℕ) : UInt8 :=
  if k < h.filesz then file.getD (h.offs + k) 0 else 0

/-- How many bytes are written for a segment. -/
def ProgHeader.width (h : ProgHeader) : ℕ := max h.filesz ((h.memsz / 4096 + 1) * 4096)

/-- Loading the segment writes at the address. -/
def ProgHeader.writes (h : ProgHeader) (x : ℕ) : Bool := within h.vaddr h.width x

/-- The page is one that the segment needs mapped. -/
def ProgHeader.Maps (h : ProgHeader) (p : ℕ) : Prop :=
  ∃ pg, pg < h.memsz / 4096 + 1 ∧ (h.vaddr + pg * 4096) % 2 ^ 32 / 4096 = p

/-- A byte of the segment is on the page. -/
def ProgHeader.Covers (h : ProgHeader) (p : ℕ) : Prop :=
  ∃ k, k < h.memsz ∧ (h.vaddr + k) % 2 ^ 32 / 4096 = p

/-- The last segment that writes at the address. -/
def lastWriter (hs : List ProgHeader) (x : ℕ) : Option ProgHeader := hs.reverse.find? fun h =>
  h.writes x

/-! ### Writing -/

/-- From `s` to `s'` the bytes that are `lo` to `hi` from address `a` were written. -/
structure Wrote (a lo hi : ℕ) (v : ℕ → UInt8) (s s' : Image) : Prop where
  mapped : s'.mapped = s.mapped
  fresh : s'.fresh = s.fresh
  mem : ∀ x, s'.mem x = if x < 2 ^ 32 ∧ lo ≤ dist a x ∧ dist a x < hi then v (dist a x) else s.mem x
  written : ∀ x, s'.written x = true ↔
      s.written x = true ∨ (x < 2 ^ 32 ∧ lo ≤ dist a x ∧ dist a x < hi)
  inside : ∀ x, x < 2 ^ 32 → lo ≤ dist a x → dist a x < hi → s.mapped (x / 4096) = true

section

variable {a b n k lo mid hi x : ℕ} {v w : ℕ → UInt8} {s s' s'' : Image} {h : ProgHeader}
    {file : List UInt8}

theorem dist_add (ha : a < 2 ^ 32) (hk : k < 2 ^ 32) : dist a ((a + k) % 2 ^ 32) = k := by
  unfold dist
  omega

theorem add_dist (ha : a < 2 ^ 32) (hx : x < 2 ^ 32) : (a + dist a x) % 2 ^ 32 = x := by
  unfold dist
  omega

/-- The bytes from an address `b` further on. -/
theorem within_add (ha : a < 2 ^ 32) (hb : b + n ≤ 2 ^ 32) :
    within ((a + b) % 2 ^ 32) n x = true ↔ x < 2 ^ 32 ∧ b ≤ dist a x ∧ dist a x < b + n := by
  rw [within, decide_eq_true_iff]
  refine and_congr_right fun hx => ?_
  unfold dist
  omega

theorem dist_add_left (ha : a < 2 ^ 32) (h1 : b ≤ dist a x) :
    dist ((a + b) % 2 ^ 32) x = dist a x - b := by
  unfold dist at *
  omega

/-- The page of a byte that is stored to. -/
theorem page_of_within (ha : a < 2 ^ 32) (hw : within a n x = true) :
    ∃ i, i < (a % 4096 + n + 4095) / 4096 ∧ (a / 4096 + i) % 2 ^ 20 = x / 4096 := by
  rw [within, decide_eq_true_iff] at hw
  obtain ⟨hx, hd⟩ := hw
  have hsum := add_dist ha hx
  refine ⟨(a % 4096 + dist a x) / 4096, by omega, ?_⟩
  omega

theorem store_spec (ha : a < 2 ^ 32) (hb : b + n ≤ 2 ^ 32) :
    wp (store ((a + b) % 2 ^ 32) n v) (fun _ s' => Wrote a b (b + n) (fun k => v (k - b)) s s')
      (fun _ _ => True) s := by
  have hlt : (a + b) % 2 ^ 32 < 2 ^ 32 := Nat.mod_lt _ (by decide)
  rw [store, wp_bind, wp_read, wp_ite]
  split
  · rename_i hmapped
    rw [wp_modify]
    refine ⟨rfl, rfl, fun x => ?_, fun x => ?_, fun x hx h1 h2 => ?_⟩
    · show (if within ((a + b) % 2 ^ 32) n x = true then v (dist ((a + b) % 2 ^ 32) x)
        else s.mem x) = _
      by_cases hw : within ((a + b) % 2 ^ 32) n x = true
      · have hw' := (within_add ha hb).mp hw
        rw [if_pos hw, if_pos hw', dist_add_left ha hw'.2.1]
      · rw [if_neg hw, if_neg fun h => hw ((within_add ha hb).mpr h)]
    · show (s.written x || within ((a + b) % 2 ^ 32) n x) = true ↔ _
      rw [Bool.or_eq_true, within_add ha hb]
    · obtain ⟨i, hi, hp⟩ := page_of_within hlt ((within_add ha hb).mpr ⟨hx, h1, h2⟩)
      rw [← hp]
      exact hmapped i hi
  · exact trivial

/-- Writing on where the last write ended. -/
theorem Wrote.append (h : Wrote a lo mid v s s') (h' : Wrote a mid hi v s' s'') (h1 : lo ≤ mid)
    (h2 : mid ≤ hi) :
    Wrote a lo hi v s s'' where
  mapped := h'.mapped.trans h.mapped
  fresh := h'.fresh.trans h.fresh
  mem x := by
    rw [h'.mem, h.mem]
    split_ifs <;> first | rfl | omega
  written x := by
    rw [h'.written, h.written, or_assoc]
    exact or_congr_right (by omega)
  inside x hx hlo hhi := by
    rcases Nat.lt_or_ge (dist a x) mid with hm | hm
    · exact h.inside x hx hlo hm
    · have := h'.inside x hx hm hhi
      rwa [h.mapped] at this

/-- Writing nothing. -/
theorem Wrote.refl : Wrote a lo lo v s s where
  mapped := rfl
  fresh := rfl
  mem x := by rw [if_neg (by omega)]
  written x := (or_iff_left (by omega)).symm
  inside x _ h1 h2 := by omega

theorem clearBss_spec (halign : h.align = 4096) :
    wp (clearBss h) (fun _ s' => Wrote h.vaddr (h.filesz / 4096 * 4096)
      ((h.filesz / 4096 + (h.memsz / 4096 + 1 - h.filesz / 4096)) * 4096) (fun _ => 0) s s')
        (fun _ _ => True) s := by
  have hv := h.vaddr_lt
  have hm := h.memsz_lt
  unfold clearBss npgs
  rw [halign]
  refine wp_upTo
    (I := fun i s' => Wrote h.vaddr (h.filesz / 4096 * 4096) ((h.filesz / 4096 + i) * 4096)
      (fun _ => 0) s s')
    Wrote.refl fun i t hi ht => ?_
  have hle : (h.filesz / 4096 + i) * 4096 + 4096 ≤ 2 ^ 32 := by omega
  refine (store_spec hv hle).mono (fun _ t' ht' => ?_) fun _ _ => id
  have hnext : (h.filesz / 4096 + (i + 1)) * 4096 = (h.filesz / 4096 + i) * 4096 + 4096 :=
    Nat.succ_mul _ _
  have h1 : h.filesz / 4096 * 4096 ≤ (h.filesz / 4096 + i) * 4096 :=
    Nat.mul_le_mul_right _ (Nat.le_add_right _ _)
  rw [hnext]
  exact ht.append ht' h1 (Nat.le_add_right _ _)

/-- What `fs_read` gives when it gives all that was asked for. -/
theorem fsRead_spec {offs : ℕ} (hn : 0 < n) :
    wp (fsRead file offs n) (fun l s' => s' = s ∧ (l.length = n → l = (file.drop offs).take n))
      (fun _ _ => True) s := by
  unfold fsRead
  rw [wp_ite, wp_ite, wp_ite]
  split
  · refine ⟨rfl, fun h => ?_⟩
    rw [List.length_nil] at h
    omega
  · split
    · refine ⟨rfl, fun h => ?_⟩
      rw [List.length_drop] at h
      rw [List.take_of_length_le (by rw [List.length_drop]; omega)]
    · split
      · exact ⟨rfl, fun _ => rfl⟩
      · exact trivial

theorem loadImage_spec (hf : 0 < h.filesz) :
    wp (loadImage file h) (fun _ s' => Wrote h.vaddr 0 h.filesz (h.byte file) s s')
      (fun _ _ => True) s := by
  have hv := h.vaddr_lt
  have hlt := h.filesz_lt
  rw [loadImage, wp_bind]
  refine (fsRead_spec hf).mono (fun l t hl => ?_) fun _ _ => id
  obtain ⟨rfl, hl⟩ := hl
  rw [wp_ite]
  split
  · exact trivial
  · rename_i hlen
    have hlen' := not_not.mp hlen
    have hstart : h.vaddr = (h.vaddr + 0) % 2 ^ 32 := by omega
    have hs := @store_spec h.vaddr 0 h.filesz (fun k => l.getD k 0) t hv (by omega)
    rw [← hstart, Nat.zero_add] at hs
    refine hs.mono (fun _ t' ht => ?_) fun _ _ => id
    refine ⟨ht.mapped, ht.fresh, fun x => ?_, ht.written, ht.inside⟩
    rw [ht.mem]
    by_cases hx : x < 2 ^ 32 ∧ 0 ≤ dist h.vaddr x ∧ dist h.vaddr x < h.filesz
    · rw [if_pos hx, if_pos hx, ProgHeader.byte, if_pos hx.2.2, Nat.sub_zero, hl hlen',
        List.getD_eq_getElem?_getD, List.getD_eq_getElem?_getD, List.getElem?_take_of_lt hx.2.2,
          List.getElem?_drop]
    · rw [if_neg hx, if_neg hx]

/-- Clearing and reading together write all bytes of the segment. -/
theorem Wrote.load (h1 : Wrote h.vaddr (h.filesz / 4096 * 4096)
    ((h.filesz / 4096 + (h.memsz / 4096 + 1 - h.filesz / 4096)) * 4096) (fun _ => 0) s s')
    (h2 : Wrote h.vaddr 0 h.filesz (h.byte file) s' s'') :
    Wrote h.vaddr 0 h.width (h.byte file) s s'' where
  mapped := h2.mapped.trans h1.mapped
  fresh := h2.fresh.trans h1.fresh
  mem x := by
    rw [h2.mem, h1.mem]
    unfold ProgHeader.width
    by_cases hf : dist h.vaddr x < h.filesz
    · split_ifs <;> first | rfl | omega
    · have hbyte : h.byte file (dist h.vaddr x) = 0 := if_neg hf
      rw [hbyte]
      split_ifs <;> first | rfl | omega
  written x := by
    rw [h2.written, h1.written, or_assoc]
    unfold ProgHeader.width
    exact or_congr_right (by omega)
  inside x hx _ hw := by
    unfold ProgHeader.width at hw
    rcases Nat.lt_or_ge (dist h.vaddr x) h.filesz with hf | hf
    · have := h2.inside x hx (Nat.zero_le _) hf
      rwa [h1.mapped] at this
    · exact h1.inside x hx (by omega) (by omega)

end

/-! ### Mapping and loading a segment -/

/-- From `s` to `s'` the first `n` pages of the segment were mapped. -/
structure MappedTo (h : ProgHeader) (n : ℕ) (s s' : Image) : Prop where
  mapped : ∀ p, s'.mapped p = true ↔ s.mapped p = true ∨ ∃ pg, pg < n ∧
      (h.vaddr + pg * 4096) % 2 ^ 32 / 4096 = p
  fresh : ∀ p, s'.fresh p = true ↔ s.fresh p = true ∨
      (s.mapped p = false ∧ ∃ pg, pg < n ∧ (h.vaddr + pg * 4096) % 2 ^ 32 / 4096 = p)
  mem : ∀ x, s.mapped (x / 4096) = true → s'.mem x = s.mem x
  written : s'.written = s.written

/-- From `s` to `s'` the segment was loaded. -/
structure Loaded (file : List UInt8) (h : ProgHeader) (s s' : Image) : Prop where
  mapped : ∀ p, s'.mapped p = true ↔ s.mapped p = true ∨ h.Maps p
  fresh : ∀ p, s'.fresh p = true ↔ s.fresh p = true ∨ (s.mapped p = false ∧ h.Maps p)
  mem : ∀ x, h.writes x = true → s'.mem x = h.byte file (dist h.vaddr x)
  kept : ∀ x, h.writes x = false → s.mapped (x / 4096) = true → s'.mem x = s.mem x
  written : ∀ x, s'.written x = true ↔ s.written x = true ∨ h.writes x = true
  inside : ∀ x, h.writes x = true → s'.mapped (x / 4096) = true

section

variable {stale : ℕ → UInt8} {file : List UInt8} {h : ProgHeader} {n : ℕ} {s s' s'' : Image}

theorem MappedTo.refl : MappedTo h 0 s s where
  mapped _ := (or_iff_left fun ⟨_, hpg, _⟩ => Nat.not_lt_zero _ hpg).symm
  fresh _ := (or_iff_left fun ⟨_, _, hpg, _⟩ => Nat.not_lt_zero _ hpg).symm
  mem _ _ := rfl
  written := rfl

theorem exists_lt_succ {P : ℕ → Prop} : (∃ k, k < n + 1 ∧ P k) ↔ (∃ k, k < n ∧ P k) ∨ P n := by
  constructor
  · rintro ⟨k, hk, hP⟩
    rcases Nat.lt_succ_iff_lt_or_eq.mp hk with hk | rfl
    · exact Or.inl ⟨k, hk, hP⟩
    · exact Or.inr hP
  · rintro (⟨k, hk, hP⟩ | hP)
    · exact ⟨k, Nat.lt_succ_of_lt hk, hP⟩
    · exact ⟨n, Nat.lt_succ_self n, hP⟩

/-- A page that is mapped already is left as it is. -/
theorem MappedTo.skip (hs : MappedTo h n s s')
    (hp : s'.mapped ((h.vaddr + n * 4096) % 2 ^ 32 / 4096) = true) :
    MappedTo h (n + 1) s s' := by
  refine ⟨fun p => ?_, fun p => ?_, hs.mem, hs.written⟩
  · rw [hs.mapped, exists_lt_succ, ← or_assoc]
    refine (or_iff_left_of_imp ?_).symm
    rintro rfl
    exact (hs.mapped _).mp hp
  · rw [hs.fresh, exists_lt_succ, and_or_left, ← or_assoc]
    refine (or_iff_left_of_imp ?_).symm
    rintro ⟨hm, rfl⟩
    rcases (hs.mapped _).mp hp with h1 | h1
    · rw [hm] at h1
      cases h1
    · exact Or.inr ⟨hm, h1⟩

theorem MappedTo.step (hs : MappedTo h n s s')
    (hp : s'.mapped ((h.vaddr + n * 4096) % 2 ^ 32 / 4096) = false) :
    MappedTo h (n + 1) s (map stale ((h.vaddr + n * 4096) % 2 ^ 32 / 4096) s') := by
  generalize hq : (h.vaddr + n * 4096) % 2 ^ 32 / 4096 = q at hp ⊢
  have hsq : s.mapped q = false := by
    rw [Bool.eq_false_iff]
    intro hm
    rw [(hs.mapped q).mpr (Or.inl hm)] at hp
    cases hp
  have hupdate : ∀ (f : ℕ → Bool) (p : ℕ), Function.update f q true p = true ↔
    f p = true ∨ q = p := by
    intro f p
    by_cases hpq : p = q
    · subst hpq
      rw [Function.update_self]
      exact iff_of_true rfl (Or.inr rfl)
    · rw [Function.update_of_ne hpq]
      exact (or_iff_left fun he => hpq he.symm).symm
  refine ⟨fun p => ?_, fun p => ?_, fun x hx => ?_, hs.written⟩
  · show Function.update s'.mapped q true p = true ↔ _
    rw [hupdate, hs.mapped, exists_lt_succ, hq, or_assoc]
  · show Function.update s'.fresh q true p = true ↔ _
    rw [hupdate, hs.fresh, exists_lt_succ, hq, and_or_left, or_assoc]
    refine or_congr_right (or_congr_right ⟨fun he => ⟨?_, he⟩, fun he => he.2⟩)
    rw [← he]
    exact hsq
  · show (if x / 4096 = q then stale x else s'.mem x) = s.mem x
    rw [if_neg, hs.mem x hx]
    rintro rfl
    rw [hsq] at hx
    cases hx

theorem mapPages_spec (halign : h.align = 4096) :
    wp (mapPages stale h) (fun _ s' => MappedTo h (h.memsz / 4096 + 1) s s')
      (fun _ _ => True) s := by
  unfold mapPages npgs
  rw [halign]
  refine wp_upTo (I := fun i s' => MappedTo h i s s') MappedTo.refl fun i t _ ht => ?_
  rw [wp_bind, wp_read, wp_ite]
  split
  · rename_i hp
    exact ht.skip hp
  · rename_i hp
    rw [wp_modify]
    exact ht.step (Bool.eq_false_iff.mpr hp)

theorem writes_iff (h : ProgHeader) (x : ℕ) :
    h.writes x = true ↔ x < 2 ^ 32 ∧ 0 ≤ dist h.vaddr x ∧ dist h.vaddr x < h.width := by
  rw [ProgHeader.writes, within, decide_eq_true_iff]
  exact and_congr_right fun _ => (and_iff_right (Nat.zero_le _)).symm

theorem MappedTo.load (hm : MappedTo h (h.memsz / 4096 + 1) s s')
    (hw : Wrote h.vaddr 0 h.width (h.byte file) s' s'') :
    Loaded file h s s'' := by
  refine ⟨fun p => ?_, fun p => ?_, fun x hx => ?_, fun x hx hp => ?_, fun x => ?_, fun x hx => ?_⟩
  · rw [hw.mapped, hm.mapped]
    rfl
  · rw [hw.fresh, hm.fresh]
    rfl
  · rw [hw.mem, if_pos ((writes_iff h x).mp hx)]
  · rw [hw.mem, if_neg fun hx' => ?_, hm.mem x hp]
    rw [(writes_iff h x).mpr hx'] at hx
    cases hx
  · rw [hw.written, hm.written, writes_iff]
  · have hx' := (writes_iff h x).mp hx
    rw [hw.mapped]
    exact hw.inside x hx'.1 hx'.2.1 hx'.2.2

/-- **One segment**. -/
theorem loadSegment_spec :
    wp (loadSegment stale file h) (fun _ s' => if h.type % 2 = 1 ∧ 0 < h.filesz then
      userCodeStart ≤ h.vaddr ∧ Loaded file h s s' else s' = s) (fun _ _ => True) s := by
  unfold loadSegment
  rw [wp_ite]
  split
  · rename_i hload
    rw [wp_ite, wp_ite, wp_ite]
    split_ifs with hvaddr hend halign
    · exact trivial
    · exact trivial
    · exact trivial
    · have halign' : h.align = 4096 := by simpa using halign
      rw [wp_bind]
      refine (mapPages_spec halign').mono (fun _ t ht => ?_) fun _ _ => id
      rw [wp_bind]
      refine (clearBss_spec halign').mono (fun _ t' ht' => ?_) fun _ _ => id
      refine (loadImage_spec hload.2).mono (fun _ t'' ht'' => ?_) fun _ _ => id
      exact ⟨Nat.not_lt.mp hvaddr, ht.load (ht'.load ht'')⟩
  · exact rfl

/-! ### The old image -/

/-- The page is one of those from `p` on that are mapped without a hole. -/
def InRun (s : Image) (p q : ℕ) : Prop := p ≤ q ∧ ∀ r, p ≤ r → r ≤ q → s.mapped r = true

theorem mapped_freePage {p q : ℕ} : (freePage p s).mapped q = true ↔ s.mapped q = true ∧ q ≠ p := by
  show Function.update s.mapped p false q = true ↔ _
  by_cases hq : q = p
  · subst hq
    rw [Function.update_self]
    exact iff_of_false Bool.false_ne_true fun hn => hn.2 rfl
  · rw [Function.update_of_ne hq]
    exact (and_iff_left hq).symm

theorem freeImage_spec (p : ℕ) {E : Halt → Image → Prop} :
    wp (freeImage n p)
      (fun _ s' => (∀ q, s'.mapped q = true ↔ s.mapped q = true ∧ ¬(InRun s p q ∧ q < p + n)) ∧
      s'.fresh = s.fresh ∧ s'.written = s.written) E s := by
  induction n generalizing p s with
  | zero => exact ⟨fun q => (and_iff_left fun hr => by have := hr.1.1; omega).symm, rfl, rfl⟩
  | succ n ih =>
    rw [freeImage, wp_bind, wp_read, wp_ite]
    split
    · rename_i hp
      rw [wp_bind, wp_modify]
      refine (ih (p + 1)).mono (fun _ t ht => ⟨fun q => ?_, ht.2.1, ht.2.2⟩) fun _ _ => id
      rw [ht.1, mapped_freePage]
      by_cases hq : q = p
      · subst hq
        refine iff_of_false (fun h => h.1.2 rfl) fun h =>
          h.2 ⟨⟨le_rfl, fun r h1 h2 => ?_⟩, by omega⟩
        rw [show r = q by omega]
        exact hp
      · have hrun : InRun (freePage p s) (p + 1) q ↔ InRun s p q := by
          refine ⟨fun h => ⟨by have := h.1; omega, fun r h1 h2 => ?_⟩, fun h =>
            ⟨by have := h.1; omega, fun r h1 h2 => ?_⟩⟩
          · by_cases hr : r = p
            · rw [hr]
              exact hp
            · exact (mapped_freePage.mp (h.2 r (by omega) h2)).1
          · exact mapped_freePage.mpr ⟨h.2 r (by omega) h2, by omega⟩
        rw [hrun, and_iff_left hq, show p + 1 + n = p + (n + 1) by omega]
    · rename_i hp
      rw [wp_pure]
      refine ⟨fun q => (and_iff_left fun hr => hp ?_).symm, rfl, rfl⟩
      exact hr.1.2 p le_rfl hr.1.1

theorem freeHeap_spec :
    wp freeHeap (fun _ s' => (∀ q, q < uheapStart / 4096 → s'.mapped q = s.mapped q) ∧
    s'.fresh = s.fresh ∧ s'.written = s.written) (fun _ _ => True) s := by
  rw [freeHeap, wp_bind, wp_read, wp_bind]
  have hloop := @wp_upTo Halt Image (fun _ _ => True) s (fun i => do
    let s ← read
    if s.mapped (uheapStart / 4096 + i) then modify (freePage (uheapStart / 4096 + i))
    else halt .panic)
    (fun _ s' => (∀ q, q < uheapStart / 4096 → s'.mapped q = s.mapped q) ∧ s'.fresh = s.fresh ∧
      s'.written = s.written)
    ((s.heapEnd - uheapStart + 4095) / 4096) ⟨fun _ _ => rfl, rfl, rfl⟩ fun i t _ ht => by
      rw [wp_bind, wp_read, wp_ite]
      split
      · rw [wp_modify]
        refine ⟨fun q hq => ?_, ht.2.1, ht.2.2⟩
        rw [← ht.1 q hq]
        exact Function.update_of_ne (by omega) _ _
      · exact trivial
  exact hloop.mono (fun _ t ht => by rw [wp_modify]; exact ht) fun _ _ => id

/-! ### All segments -/

/-- From `s` to `s'` the segments were loaded. -/
structure LoadedAll (file : List UInt8) (hs : List ProgHeader) (s s' : Image) : Prop where
  start : ∀ h ∈ hs, userCodeStart ≤ h.vaddr
  mapped : ∀ p, s'.mapped p = true ↔ s.mapped p = true ∨ ∃ h ∈ hs, h.Maps p
  fresh : ∀ p, s'.fresh p = true ↔ s.mapped p = false ∧ ∃ h ∈ hs, h.Maps p
  mem : ∀ x h, lastWriter hs x = some h → s'.mem x = h.byte file (dist h.vaddr x)
  written : ∀ x, s'.written x = true ↔ ∃ h ∈ hs, h.writes x = true
  inside : ∀ h ∈ hs, ∀ x, h.writes x = true → s'.mapped (x / 4096) = true

theorem lastWriter_snoc (hs : List ProgHeader) (h : ProgHeader) (x : ℕ) :
    lastWriter (hs ++ [h]) x = if h.writes x = true then some h else lastWriter hs x := by
  unfold lastWriter
  rw [List.reverse_append, List.reverse_singleton, List.singleton_append, List.find?_cons]
  cases h.writes x <;> rfl

theorem lastWriter_some {hs : List ProgHeader} {x : ℕ} (hl : lastWriter hs x = some h) :
    h ∈ hs ∧ h.writes x = true :=
  ⟨List.mem_reverse.mp (List.mem_of_find?_eq_some hl),
    List.find?_some (p := fun g : ProgHeader => g.writes x) hl⟩

theorem exists_mem_snoc {hs : List ProgHeader} {P : ProgHeader → Prop} :
    (∃ g ∈ hs ++ [h], P g) ↔ (∃ g ∈ hs, P g) ∨ P h := by
  simp [or_and_right, exists_or]

theorem LoadedAll.snoc {hs : List ProgHeader} (hall : LoadedAll file hs s s')
    (hstart : userCodeStart ≤ h.vaddr)
    (hl : Loaded file h s' s'') : LoadedAll file (hs ++ [h]) s s'' := by
  refine ⟨fun g hg => ?_, fun p => ?_, fun p => ?_, fun x g hg => ?_, fun x => ?_,
    fun g hg x hx => ?_⟩
  · rcases List.mem_append.mp hg with hg | hg
    · exact hall.start g hg
    · rw [List.mem_singleton.mp hg]
      exact hstart
  · rw [hl.mapped, hall.mapped, exists_mem_snoc, or_assoc]
  · rw [hl.fresh, hall.fresh, exists_mem_snoc, and_or_left]
    constructor
    · rintro (hold | ⟨hm, hp⟩)
      · exact Or.inl hold
      · refine Or.inr ⟨?_, hp⟩
        rw [Bool.eq_false_iff] at hm ⊢
        exact fun h1 => hm ((hall.mapped p).mpr (Or.inl h1))
    · rintro (hold | ⟨hm, hp⟩)
      · exact Or.inl hold
      · by_cases hex : ∃ g ∈ hs, g.Maps p
        · exact Or.inl ⟨hm, hex⟩
        · refine Or.inr ⟨?_, hp⟩
          rw [Bool.eq_false_iff] at hm ⊢
          exact fun h1 => ((hall.mapped p).mp h1).elim hm hex
  · rw [lastWriter_snoc] at hg
    split at hg
    · rename_i hw
      cases hg
      exact hl.mem x hw
    · rename_i hw
      obtain ⟨hmem, hwg⟩ := lastWriter_some hg
      rw [hl.kept x (Bool.eq_false_iff.mpr hw) (hall.inside g hmem x hwg)]
      exact hall.mem x g hg
  · rw [hl.written, hall.written, exists_mem_snoc]
  · rcases List.mem_append.mp hg with hg | hg
    · exact (hl.mapped _).mpr (Or.inl (hall.inside g hg x hx))
    · rw [List.mem_singleton.mp hg] at hx
      exact hl.inside x hx

theorem headers_succ (file : List UInt8) (n : ℕ) : headers file (n + 1) =
    headers file n ++
      [progHeader ((file.drop ((elfHeader (file.take 52)).headerAt n)).take 32)] := by
  rw [headers, List.range_succ, List.map_append]
  rfl

theorem loadSegments_spec (hfresh : ∀ p, s.fresh p = false) (hwritten : ∀ x, s.written x = false) :
    wp (loadSegments stale file (elfHeader (file.take 52)))
      (fun _ s' => LoadedAll file (segments file) s s')
      (fun _ _ => True) s := by
  unfold loadSegments segments
  refine wp_upTo (I := fun i s' => LoadedAll file (loads (headers file i)) s s') ?_
    fun i t _ ht => ?_
  · refine ⟨fun _ hg => (by cases hg), fun p => ?_, fun p => ?_,
      fun x g hg => (by cases hg), fun x => ?_, fun g hg => (by cases hg)⟩
    · exact (or_iff_left fun ⟨_, hg, _⟩ => by cases hg).symm
    · rw [hfresh]
      exact iff_of_false Bool.false_ne_true fun ⟨_, _, hg, _⟩ => by cases hg
    · rw [hwritten]
      exact iff_of_false Bool.false_ne_true fun ⟨_, hg, _⟩ => by cases hg
  · rw [wp_bind]
    refine (fsRead_spec (by decide)).mono (fun l t' hl => ?_) fun _ _ => id
    obtain ⟨rfl, hl⟩ := hl
    rw [wp_ite]
    split
    · exact trivial
    · rename_i hlen
      rw [hl (not_not.mp hlen), headers_succ]
      refine loadSegment_spec.mono (fun _ t'' ht'' => ?_) fun _ _ => id
      generalize progHeader
        ((file.drop ((elfHeader (file.take 52)).headerAt i)).take 32) = g at ht'' ⊢
      unfold loads at ht ⊢
      rw [List.filter_append]
      split at ht''
      · rename_i hload
        rw [List.filter_cons_of_pos (by simpa using hload), List.filter_nil]
        exact ht.snoc ht''.1 ht''.2
      · rename_i hload
        rw [List.filter_cons_of_neg (by simpa using hload), List.filter_nil, List.append_nil, ht'']
        exact ht

/-! ### The image -/

/-- The page lies in the part of the address space for the image. -/
def InUser (p : ℕ) : Prop := userCodeStart ≤ p * 4096 ∧ p * 4096 < uheapStart

/-- **The image is the file's**: what was written and mapped lies in the part for the image; every
byte of a segment is mapped and holds what the file says; and of the old pages only those are left
on which there is a segment. -/
structure Faithful (file : List UInt8) (hs : List ProgHeader) (s s' : Image) : Prop where
  written : ∀ x, s'.written x = true → userCodeStart ≤ x ∧ x < uheapStart
  fresh : ∀ p, s'.fresh p = true → InUser p
  bytes : ∀ h ∈ hs, ∀ k, k < h.memsz →
    s'.mapped ((h.vaddr + k) % 2 ^ 32 / 4096) = true ∧
      s'.mem ((h.vaddr + k) % 2 ^ 32) = h.byte file k
  old : ∀ p, InUser p → s.mapped p = true → s'.mapped p = true → s'.fresh p = false →
      ∃ h ∈ hs, h.Covers p

/-- A file that is loaded right over an old image: the pages that a segment takes, one more than
its size in pages, and its bytes in the file, end where the heap starts; what the last segment
writes at an address of another one is what that one has there; and the pages of the old image
behind a hole have segments on them. -/
structure Fits (file : List UInt8) (hs : List ProgHeader) (s : Image) : Prop where
  below : ∀ h ∈ hs, h.vaddr + h.width ≤ uheapStart
  agree : ∀ h ∈ hs, ∀ k, k < h.memsz → ∀ g, lastWriter hs ((h.vaddr + k) % 2 ^ 32) = some g →
    g.byte file (dist g.vaddr ((h.vaddr + k) % 2 ^ 32)) = h.byte file k
  covered : ∀ p, InUser p → s.mapped p = true → ¬InRun s (userCodeStart / 4096) p →
      ∃ h ∈ hs, h.Covers p

theorem memsz_lt_width (h : ProgHeader) : h.memsz < h.width := by
  unfold ProgHeader.width
  omega

theorem writes_byte (h : ProgHeader) {k : ℕ} (hk : k < h.width) (hk' : k < 2 ^ 32) :
    h.writes ((h.vaddr + k) % 2 ^ 32) = true := by
  rw [writes_iff, dist_add h.vaddr_lt hk']
  exact ⟨Nat.mod_lt _ (by decide), Nat.zero_le _, hk⟩

/-- The last segment that writes at an address that some segment writes at. -/
theorem exists_lastWriter {hs : List ProgHeader} {x : ℕ} (hh : h ∈ hs) (hx : h.writes x = true) :
    ∃ g, lastWriter hs x = some g := by
  have hsome : (lastWriter hs x).isSome := List.find?_isSome.mpr ⟨h, List.mem_reverse.mpr hh, hx⟩
  exact Option.isSome_iff_exists.mp hsome

section

variable {hs : List ProgHeader}

/-- What is written lies below the heap when the segments do. -/
theorem LoadedAll.below_iff (hall : LoadedAll file hs s' s'') :
    (∀ x, s''.written x = true → userCodeStart ≤ x ∧ x < uheapStart) ↔
    ∀ h ∈ hs, h.vaddr + h.width ≤ uheapStart := by
  constructor
  · intro hw h hh
    have hv := h.vaddr_lt
    have hmem := memsz_lt_width h
    by_contra hover
    rcases Nat.lt_or_ge h.vaddr uheapStart with hlt | hge
    · have hx : h.writes ((h.vaddr + (uheapStart - h.vaddr)) % 2 ^ 32) = true :=
        writes_byte h (by omega) (by unfold uheapStart; omega)
      have heq : (h.vaddr + (uheapStart - h.vaddr)) % 2 ^ 32 = uheapStart := by
        unfold uheapStart at *
        omega
      rw [heq] at hx
      exact Nat.lt_irrefl _ (hw uheapStart ((hall.written _).mpr ⟨h, hh, hx⟩)).2
    · have hx : h.writes ((h.vaddr + 0) % 2 ^ 32) = true := writes_byte h (by omega) (by decide)
      have heq : (h.vaddr + 0) % 2 ^ 32 = h.vaddr := by omega
      rw [heq] at hx
      have := (hw h.vaddr ((hall.written _).mpr ⟨h, hh, hx⟩)).2
      omega
  · intro hb x hx
    obtain ⟨h, hh, hw⟩ := (hall.written x).mp hx
    have hv := h.vaddr_lt
    have hstart := hall.start h hh
    have hbelow := hb h hh
    obtain ⟨hx', -, hd⟩ := (writes_iff h x).mp hw
    have hsum := add_dist hv hx'
    unfold uheapStart userCodeStart at *
    omega

theorem LoadedAll.fresh_inUser (hall : LoadedAll file hs s' s'')
    (hb : ∀ h ∈ hs, h.vaddr + h.width ≤ uheapStart) {p : ℕ}
    (hp : s''.fresh p = true) : InUser p := by
  obtain ⟨-, h, hh, pg, hpg, rfl⟩ := (hall.fresh p).mp hp
  have hstart := hall.start h hh
  have hbelow := hb h hh
  have hw : (h.memsz / 4096 + 1) * 4096 ≤ h.width := le_max_right _ _
  have hle : (pg + 1) * 4096 ≤ (h.memsz / 4096 + 1) * 4096 := Nat.mul_le_mul_right _ hpg
  unfold InUser uheapStart userCodeStart at *
  omega

/-- Every byte of a segment is what the last segment that writes there has. -/
theorem LoadedAll.bytes_iff (hall : LoadedAll file hs s' s'') :
    (∀ h ∈ hs, ∀ k, k < h.memsz → s''.mapped ((h.vaddr + k) % 2 ^ 32 / 4096) = true ∧
      s''.mem ((h.vaddr + k) % 2 ^ 32) = h.byte file k) ↔
    ∀ h ∈ hs, ∀ k, k < h.memsz → ∀ g, lastWriter hs ((h.vaddr + k) % 2 ^ 32) = some g →
      g.byte file (dist g.vaddr ((h.vaddr + k) % 2 ^ 32)) = h.byte file k := by
  refine forall₂_congr fun h hh => forall₂_congr fun k hk => ?_
  have hm := h.memsz_lt
  have hw := memsz_lt_width h
  have hwrites := @writes_byte h k (by omega) (by omega)
  constructor
  · rintro ⟨-, hbyte⟩ g hg
    rw [← hall.mem _ g hg]
    exact hbyte
  · intro hg
    obtain ⟨g, hlast⟩ := exists_lastWriter hh hwrites
    refine ⟨hall.inside h hh _ hwrites, ?_⟩
    rw [hall.mem _ g hlast]
    exact hg g hlast

/-- The old pages that are left are those behind a hole. -/
theorem LoadedAll.old_iff (hall : LoadedAll file hs s' s'')
    (hfree : ∀ q, InUser q → (s'.mapped q = true ↔ s.mapped q = true ∧
    ¬InRun s (userCodeStart / 4096) q)) :
    (∀ p, InUser p → s.mapped p = true → s''.mapped p = true → s''.fresh p = false →
      ∃ h ∈ hs, h.Covers p) ↔
    ∀ p, InUser p → s.mapped p = true → ¬InRun s (userCodeStart / 4096) p →
      ∃ h ∈ hs, h.Covers p := by
  refine forall₂_congr fun p hp => forall_congr' fun hm => ?_
  have hleft : s''.mapped p = true ∧ s''.fresh p = false ↔ s'.mapped p = true := by
    constructor
    · rintro ⟨h1, h2⟩
      rcases (hall.mapped p).mp h1 with h3 | h3
      · exact h3
      · by_contra h4
        rw [(hall.fresh p).mpr ⟨Bool.eq_false_iff.mpr h4, h3⟩] at h2
        cases h2
    · intro h1
      refine ⟨(hall.mapped p).mpr (Or.inl h1), ?_⟩
      rw [Bool.eq_false_iff]
      intro h2
      rw [((hall.fresh p).mp h2).1] at h1
      cases h1
  rw [← and_imp, hleft, hfree p hp, and_iff_right hm]

theorem LoadedAll.faithful_iff (hall : LoadedAll file hs s' s'')
    (hfree : ∀ q, InUser q → (s'.mapped q = true ↔ s.mapped q = true ∧
    ¬InRun s (userCodeStart / 4096) q)) : Faithful file hs s s'' ↔ Fits file hs s := by
  constructor
  · intro h
    exact ⟨hall.below_iff.mp h.written, hall.bytes_iff.mp h.bytes, (hall.old_iff hfree).mp h.old⟩
  · intro h
    exact ⟨hall.below_iff.mpr h.below, fun p => hall.fresh_inUser h.below,
      hall.bytes_iff.mpr h.agree, (hall.old_iff hfree).mpr h.covered⟩

end

end

/-- The memory before `sys_exec`. -/
def before (mapped : ℕ → Bool) (mem : ℕ → UInt8) (heapEnd : ℕ) : Image :=
  ⟨mapped, mem, heapEnd, fun _ => false, fun _ => false⟩

/-- **`sys_exec`**: when it loads a file, the image is the file's exactly when the segments fit. -/
theorem exec_image (stale : ℕ → UInt8) (file : List UInt8) (mapped : ℕ → Bool) (mem : ℕ → UInt8)
    (heapEnd : ℕ) :
    wp (sysExec stale file)
      (fun _ s => Faithful file (segments file) (before mapped mem heapEnd) s ↔
      Fits file (segments file) (before mapped mem heapEnd)) (fun _ _ => True)
        (before mapped mem heapEnd) := by
  rw [sysExec, wp_bind]
  refine (fsRead_spec (by decide)).mono (fun l t hl => ?_) fun _ _ => id
  obtain ⟨rfl, hl⟩ := hl
  rw [wp_ite, wp_ite, wp_ite]
  split_ifs with hlen hmagic htype
  · exact trivial
  · exact trivial
  · exact trivial
  · have hl' : l = file.take 52 := by
      have := hl (by simpa using hlen)
      rwa [List.drop_zero] at this
    rw [hl', wp_bind]
    refine (freeImage_spec _).mono (fun _ t ht => ?_) fun _ _ => id
    rw [wp_bind]
    refine freeHeap_spec.mono (fun _ t' ht' => ?_) fun _ _ => id
    refine (loadSegments_spec (fun p => ?_) fun x => ?_).mono (fun _ t'' ht'' => ?_) fun _ _ => id
    · rw [ht'.2.1, ht.2.1]
      rfl
    · rw [ht'.2.2, ht.2.2]
      rfl
    · refine ht''.faithful_iff fun q hq => ?_
      have hlt : q < uheapStart / 4096 := by
        unfold InUser uheapStart at *
        omega
      rw [ht'.1 q hlt, ht.1]
      refine and_congr_right fun _ => not_congr (and_iff_left ?_)
      unfold uheapStart userCodeStart at *
      omega

/-- An ELF file with one segment, which has one byte of the file. -/
def oneSegment (vaddr memsz : ℕ) : List UInt8 :=
  [0x7F, 0x45, 0x4C, 0x46, 0, 0, 0, 0, 0, 0, 0, 0, 0, 0, 0, 0, 2, 0, 3, 0, 1, 0, 0, 0] ++
    leBytes 4 vaddr ++ leBytes 4 52 ++
    leBytes 4 0 ++ leBytes 4 0 ++ [52, 0, 32, 0, 1, 0, 0, 0, 0, 0, 0, 0] ++
    (leBytes 4 1 ++ leBytes 4 84 ++ leBytes 4 vaddr ++ leBytes 4 vaddr ++ leBytes 4 1 ++
      leBytes 4 memsz ++ leBytes 4 5 ++
      leBytes 4 4096) ++ [0x90]

/-- A task that has no image yet. -/
def empty : Image := before (fun _ => false) (fun _ => 0) uheapStart

/-- A file that fits is loaded. -/
theorem exec_image_small :
    ∃ s, sysExec (fun _ => 0xFF) (oneSegment userCodeStart 1) empty = .ok () s ∧
    Faithful (oneSegment userCodeStart 1) (segments (oneSegment userCodeStart 1)) empty s := by
  have hreturned :
    (sysExec (fun _ => 0xFF) (oneSegment userCodeStart 1) empty).returned = true := by
    decide +kernel
  refine ⟨_, Outcome.eq_ok_of_returned hreturned, ?_⟩
  have himage :=
    exec_image (fun _ => 0xFF) (oneSegment userCodeStart 1) (fun _ => false) (fun _ => 0) uheapStart
  refine (himage.ok (Outcome.eq_ok_of_returned hreturned)).mpr
    ⟨by decide +kernel, ?_, fun p _ hp => by cases hp⟩
  have hone : segments (oneSegment userCodeStart 1) =
    [progHeader ((oneSegment userCodeStart 1).drop 52)] := by
    rfl
  rw [hone]
  intro h hh k hk g hg
  obtain ⟨hg', -⟩ := lastWriter_some hg
  have hh' := List.mem_singleton.mp hh
  rw [hh'] at hk ⊢
  rw [List.mem_singleton.mp hg']
  have hk0 : k = 0 := Nat.lt_one_iff.mp hk
  subst hk0
  decide +kernel

/-- The last page below the heap, full: the page behind it is mapped as well. -/
theorem page_behind_mapped :
    ∃ s, sysExec (fun _ => 0) (oneSegment 0x1FFFF000 4096) empty = .ok () s ∧
    ¬Faithful (oneSegment 0x1FFFF000 4096) (segments (oneSegment 0x1FFFF000 4096)) empty s := by
  have hreturned : (sysExec (fun _ => 0) (oneSegment 0x1FFFF000 4096) empty).returned = true := by
    decide +kernel
  have hfresh : (sysExec (fun _ => 0) (oneSegment 0x1FFFF000 4096) empty).state.fresh 0x20000 =
    true := by
    decide +kernel
  refine ⟨_, Outcome.eq_ok_of_returned hreturned, fun h => ?_⟩
  have hlt := (h.fresh _ hfresh).2
  exact absurd hlt (by decide)

end Cosiris.Exec
