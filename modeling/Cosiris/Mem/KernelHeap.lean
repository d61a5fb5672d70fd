import Cosiris.Lib.Runs
import Cosiris.Mem.Release
import Mathlib.Data.List.Nodup
import Mathlib.Data.List.Pairwise

/-!
# The kernel heap is shared

Runs of `fork`, of the end of processes and of the growth of the kernel heap, in the context
of any process. A directory shares the tables of the kernel heap with the one it was
cloned from, so that a page that is mapped in a table that exists is mapped for every
process. A table that is missing is made in the current directory only: a
heap that grows into a new table while there is another process is not shared any
more (`heap_not_shared`). In every other run it is (`kernel_heap_shared`).
-/

namespace Cosiris.Mem

open Prog

/-- The machine, and the directories of the processes. -/
structure Kernel where
  machine : Machine
  live : List ℕ

namespace Kernel

/-- The memory. -/
def mem (k : Kernel) : Memory := k.machine.mem

/-- The kernel with another state of the machine. -/
def withMachine (k : Kernel) (m : Machine) : Kernel := { k with machine := m }

/-- A program of the memory manager. -/
def onMachine {α : Type} (p : MemM α) : Prog Halt Kernel α :=
  zoom Kernel.machine (fun m k => k.withMachine m) p

/-- The frames that belong to the processes. -/
def frames (k : Kernel) : List ℕ := k.live.flatMap (owned k.mem)

end Kernel

/-- What happens to processes and the heap. -/
inductive Op where
  /-- The current process forks. -/
  | fork
  /-- The directory of another process, which has ended, is freed. -/
  | exit (d : ℕ)
  /-- The current process makes the heap grow. -/
  | grow (increment : ℕ)
  /-- Another process runs. -/
  | switch (d : ℕ)

/-- Perform an operation. -/
def Op.exec : Op → Prog Halt Kernel Unit
  | .fork => do
    let dir ← Kernel.onMachine cloneDirectory
    modify fun k => { k with live := k.live ++ [dir / 4096] }
  | .exit d => do
    Kernel.onMachine (freeDirectory (4096 * d))
    modify fun k => { k with live := k.live.erase d }
  | .grow increment => discard (Kernel.onMachine (sbrk increment))
  | .switch d => modify fun k => k.withMachine { k.machine with dir := d }

/-- Only processes that exist run or end, and not the current one ends. -/
def Op.Allowed (k : Kernel) : Op → Prop
  | .exit d => d ∈ k.live ∧ d ≠ k.machine.dir
  | .switch d => d ∈ k.live
  | _ => True

/-- The pages of an increment. -/
def pages (increment : ℕ) : ℕ := increment / 4096 + if increment % 4096 ≠ 0 then 1 else 0

/-- The heap does not grow past its end, and not into a table that is missing in the current
directory when there is another process. -/
def Op.Careful (k : Kernel) : Op → Prop
  | .grow increment => k.machine.heapEnd < heapMax ∧ ∀ page, k.machine.heapEnd / 4096 ≤ page →
      page < k.machine.heapEnd / 4096 + pages increment → k.live = [k.machine.dir] ∨
        k.mem k.machine.dir (page / 1024) ≠ 0
  | _ => True

/-- An operation that meets a condition, and returns. -/
def Kernel.Step (C : Kernel → Op → Prop) (k k' : Kernel) : Prop :=
  ∃ op, op.Allowed k ∧ C k op ∧ op.exec k = .ok () k'

/-- Every page of the heap is mapped to one frame, the same for every process. -/
def Kernel.HeapShared (k : Kernel) : Prop :=
  ∀ page, heapStart ≤ 4096 * page → 4096 * page < k.machine.heapEnd →
    ∃ f, ∀ d ∈ k.live, (walk k.mem d page).map Mapping.frame = some f

/-- The entries of a directory for the kernel heap. -/
def HeapSlot (i : ℕ) : Prop := 832 ≤ i ∧ i < 896

/-- The processes and the heap are well-formed: the frames of the processes are distinct, and not
free; every directory maps itself and has a table for the reserved page, which is not mapped; and
the tables of the heap are the same for all processes, and none of the other frames. -/
structure Kernel.Sound (k : Kernel) (free : List ℕ) : Prop where
  chain : FreeList k.mem k.machine.lastFreePage free
  current : k.machine.dir ∈ k.live
  nodup : (k.frames ++ free).Nodup
  zero : 0 ∉ k.frames
  rooted : ∀ d ∈ k.live, Rooted { k.machine with dir := d } (k.mem d 1022 / 4096) 0
  heapTable : ∀ d ∈ k.live, ∀ i, HeapSlot i → k.mem d i % 2 = 1 →
      k.mem d i / 4096 ∉ k.frames ++ free
  absent : ∀ d ∈ k.live, ∀ i, HeapSlot i → k.mem d i % 2 = 0 → k.mem d i = 0
  shared : ∀ d ∈ k.live, ∀ d' ∈ k.live, ∀ i, HeapSlot i → k.mem d' i = k.mem d i
  aligned : k.machine.heapEnd % 4096 = 0
  heapEnd_le : k.machine.heapEnd ≤ heapMax
  heapEnd_ge : heapStart ≤ k.machine.heapEnd
  mapped : ∀ d ∈ k.live, ∀ page, heapStart ≤ 4096 * page → 4096 * page < k.machine.heapEnd →
      (walk k.mem d page).isSome

section

variable {k : Kernel} {free : List ℕ} {d f i page : ℕ}

theorem mem_frames (hd : d ∈ k.live) (hf : f ∈ owned k.mem d) : f ∈ k.frames :=
    List.mem_flatMap.mpr ⟨d, hd, hf⟩

theorem mem_owned {mem : Memory} (hf : f ∈ slotsFrames mem d 1023) : f ∈ owned mem d :=
    List.mem_cons_of_mem _ hf

theorem dir_mem_frames (hd : d ∈ k.live) : d ∈ k.frames := mem_frames hd List.mem_cons_self

theorem slotFrames_subset {mem : Memory} (hi : i < 1023) (hf : f ∈ slotFrames mem d i) :
    f ∈ owned mem d :=
  List.mem_cons_of_mem _ (List.mem_flatMap.mpr ⟨i, List.mem_range.mpr hi, hf⟩)

theorem HeapSlot.linked (h : HeapSlot i) : Linked i := .inr h

theorem not_linked_1022 : ¬Linked 1022 := by decide

theorem not_heapSlot_1022 : ¬HeapSlot 1022 := fun h => absurd h.2 (by decide)

theorem not_heapSlot_1023 : ¬HeapSlot 1023 := fun h => absurd h.2 (by decide)

theorem Kernel.Sound.table_mem (h : k.Sound free) (hd : d ∈ k.live) :
    k.mem d 1022 / 4096 ∈ owned k.mem d := by
  refine slotFrames_subset (show 1022 < 1023 by decide) ?_
  rw [slotFrames, if_pos ⟨not_linked_1022, (h.rooted d hd).table_present⟩]
  exact List.mem_cons_self

theorem Kernel.Sound.notMem_free (h : k.Sound free) (hf : f ∈ k.frames) : f ∉ free := fun hm =>
  (List.nodup_append.mp h.nodup).2.2 f hf f hm rfl

theorem Kernel.Sound.sane (h : k.Sound free) :
    Sane k.machine (k.mem k.machine.dir 1022 / 4096) free where
  rooted := h.rooted _ h.current
  chain := h.chain
  nodup := (List.nodup_append.mp h.nodup).2.1
  dir_notMem := h.notMem_free (dir_mem_frames h.current)
  table_notMem := h.notMem_free (mem_frames h.current (h.table_mem h.current))

/-- **The heap is shared** by the processes of a well-formed state. -/
theorem Kernel.Sound.heapShared (h : k.Sound free) : k.HeapShared := by
  intro page h1 h2
  have hmax := h.heapEnd_le
  obtain ⟨x, hx⟩ := Option.isSome_iff_exists.mp (h.mapped _ h.current page h1 h2)
  refine ⟨x.frame, fun d hd => ?_⟩
  have hslot : HeapSlot (page / 1024) := by
    unfold HeapSlot
    unfold heapStart at h1
    unfold heapMax at hmax
    omega
  have hsame : walk k.mem d page = walk k.mem k.machine.dir page := by
    simp only [walk, h.shared _ h.current d hd _ hslot]
  rw [hsame, hx]
  rfl

/-! ### What changes no process -/

/-- The memory that belongs to the processes is the same, apart from the entries for the kernel
heap. -/
structure SameProcesses (k : Kernel) (live : List ℕ) (mem : Memory) : Prop where
  slots : ∀ d ∈ live, ∀ i, ¬HeapSlot i → mem d i = k.mem d i
  frames : ∀ d ∈ live, ∀ f ∈ slotsFrames k.mem d 1023, mem f = k.mem f

theorem SameProcesses.owned_eq {live : List ℕ} {mem : Memory} (h : SameProcesses k live mem)
    (hd : d ∈ live) :
    owned mem d = owned k.mem d := by
  rw [owned, owned,
    slotsFrames_congr (fun i _ hl => h.slots d hd i fun hs => hl hs.linked) (h.frames d hd)]

theorem SameProcesses.flatMap_eq {live : List ℕ} {mem : Memory} (h : SameProcesses k live mem) :
    live.flatMap (owned mem) = live.flatMap (owned k.mem) :=
  List.flatMap_congr fun _ hd => h.owned_eq hd

/-- The table of the reserved page of a process is not changed. -/
theorem Kernel.Sound.rooted_of (h : k.Sound free) {live : List ℕ} {m : Machine}
    (hs : SameProcesses k live m.mem)
    (hd : d ∈ live) (hlive : d ∈ k.live) : Rooted { m with dir := d } (m.mem d 1022 / 4096) 0 := by
  have hr := h.rooted d hlive
  have h1022 : m.mem d 1022 = k.mem d 1022 := hs.slots d hd 1022 not_heapSlot_1022
  have h1023 : m.mem d 1023 = k.mem d 1023 := hs.slots d hd 1023 not_heapSlot_1023
  have ht : k.mem d 1022 / 4096 ∈ slotsFrames k.mem d 1023 := by
    refine (List.mem_cons.mp (h.table_mem hlive)).resolve_left fun e => hr.ne e
  refine ⟨?_, ?_, rfl, ?_, ?_, ?_⟩
  · show m.mem d 1023 / 4096 = d
    rw [h1023]
    exact hr.self
  · show m.mem d 1023 % 2 = 1
    rw [h1023]
    exact hr.self_present
  · show m.mem d 1022 % 2 = 1
    rw [h1022]
    exact hr.table_present
  · show m.mem (m.mem d 1022 / 4096) 1022 = 0
    rw [h1022, hs.frames d hd _ ht]
    exact hr.resv
  · show m.mem d 1022 / 4096 ≠ d
    rw [h1022]
    exact hr.ne

/-! ### Forks -/

theorem Kernel.Sound.slots_disjoint (h : k.Sound free) (hd : d ∈ k.live) {i j : ℕ} (hi : i < 1023)
    (hj : j < 1023)
    (hij : i ≠ j) : List.Disjoint (slotFrames k.mem d i) (slotFrames k.mem d j) := by
  have hframes := (List.nodup_append.mp h.nodup).1
  have howned := (List.nodup_flatMap.mp hframes).1 d hd
  have hslots := (List.nodup_flatMap.mp (List.nodup_cons.mp howned).2).2
  have : Std.Symm (Function.onFun List.Disjoint (slotFrames k.mem d)) :=
    ⟨fun _ _ h _ ha hb => h hb ha⟩
  exact hslots.forall (List.mem_range.mpr hi) (List.mem_range.mpr hj) hij

theorem Kernel.Sound.slot_nodup (h : k.Sound free) (hd : d ∈ k.live) (hi : i < 1023) :
    (slotFrames k.mem d i).Nodup := by
  have hframes := (List.nodup_append.mp h.nodup).1
  have howned := (List.nodup_flatMap.mp hframes).1 d hd
  exact (List.nodup_flatMap.mp (List.nodup_cons.mp howned).2).1 i (List.mem_range.mpr hi)

theorem Kernel.Sound.dir_notMem_slots (h : k.Sound free) (hd : d ∈ k.live) :
    d ∉ slotsFrames k.mem d 1023 := by
  have hframes := (List.nodup_append.mp h.nodup).1
  have howned : (d :: slotsFrames k.mem d 1023).Nodup := (List.nodup_flatMap.mp hframes).1 d hd
  exact (List.nodup_cons.mp howned).1

/-- What the current directory refers to is in use. -/
theorem Kernel.Sound.source (h : k.Sound free) :
    Source k.machine (k.mem k.machine.dir 1022 / 4096) free where
  table i hi hl hp := by
    refine h.notMem_free (mem_frames h.current (slotFrames_subset hi ?_))
    rw [slotFrames, if_pos ⟨hl, hp⟩]
    exact List.mem_cons_self
  page i j hi hj hl hp he := by
    have hs : slotFrames k.mem k.machine.dir i = k.mem k.machine.dir i / 4096 ::
        tableFrames k.mem (k.mem k.machine.dir i / 4096) 1024 := if_pos ⟨hl, hp⟩
    have hmem : k.mem (k.mem k.machine.dir i / 4096) j / 4096 ∈
      tableFrames k.mem (k.mem k.machine.dir i / 4096) 1024 :=
      mem_tableFrames hj he
    refine ⟨h.notMem_free
      (mem_frames h.current (slotFrames_subset hi (hs ▸ List.mem_cons_of_mem _ hmem))), fun e => ?_⟩
    have h1022 : k.mem k.machine.dir 1022 / 4096 ∈ slotFrames k.mem k.machine.dir 1022 := by
      rw [slotFrames, if_pos ⟨not_linked_1022, (h.rooted _ h.current).table_present⟩]
      exact List.mem_cons_self
    change k.mem (k.mem k.machine.dir i / 4096) j / 4096 = _ at e
    rw [e] at hmem
    by_cases h3 : i = 1022
    · have hnd := h.slot_nodup h.current hi
      rw [hs] at hnd
      subst h3
      exact (List.nodup_cons.mp hnd).1 hmem
    · exact h.slots_disjoint h.current hi (show 1022 < 1023 by decide) h3
        (hs ▸ List.mem_cons_of_mem _ hmem) h1022

/-- The memory of the processes is not changed by a clone. -/
theorem Kernel.Sound.same_of_frames (h : k.Sound free) {mem : Memory}
    (hm : ∀ f, f ∉ free → mem f = k.mem f) :
    SameProcesses k k.live mem where
  slots d hd i _ := congrFun (hm d (h.notMem_free (dir_mem_frames hd))) i
  frames _ hd f hf := hm f (h.notMem_free (mem_frames hd (mem_owned hf)))

/-- A process that is not changed maps the heap as before. -/
theorem Kernel.Sound.walk_of_same (h : k.Sound free) {mem : Memory}
    (hm : ∀ f, f ∉ k.frames ++ free → mem f = k.mem f)
    (hd : d ∈ k.live) {e : ℕ} (he : mem e (page / 1024) = k.mem d (page / 1024))
    (hp : HeapSlot (page / 1024)) :
    walk mem e page = walk k.mem d page := by
  by_cases h1 : k.mem d (page / 1024) % 2 = 1
  · have ht := h.heapTable d hd _ hp h1
    simp only [walk, he, hm _ ht]
  · rw [walk_of_absent (d := d) (by omega), walk_of_absent (by rw [he]; omega)]

theorem heapSlot_of_page (h1 : heapStart ≤ 4096 * page) (h2 : 4096 * page < heapMax) :
    HeapSlot (page / 1024) := by
  unfold heapStart at h1
  unfold heapMax at h2
  unfold HeapSlot
  omega

/-- A clone has the entries of the current directory for the heap. -/
theorem Cloned.heap_slot {m m' : Machine} {t : ℕ} {used rest : List ℕ}
    (h : Cloned m t d used rest m') (hi : HeapSlot i)
    (h0 : m.mem m.dir i % 2 = 0 → m.mem m.dir i = 0) : m'.mem d i = m.mem m.dir i := by
  have hlt : i < 1023 := by
    unfold HeapSlot at hi
    omega
  have hc := h.copy i hlt
  unfold SlotCopy at hc
  split at hc
  · rename_i hp
    rw [hc, h0 hp]
  · rwa [if_pos hi.linked] at hc

/-- A clone maps itself, and has a table for the reserved page, which is not mapped. -/
theorem Cloned.rooted {m m' : Machine} {t : ℕ} {used rest : List ℕ} (h : Cloned m t d used rest m')
    (hs : Sane m t (d :: (used ++ rest))) : Rooted { m' with dir := d }
    (m'.mem d 1022 / 4096) 0 := by
  have hc := h.copy 1022 (by decide)
  have hp := hs.rooted.table_present
  rw [SlotCopy, if_neg (by omega), if_neg not_linked_1022] at hc
  obtain ⟨hflags, hptes⟩ := hc
  have hpte := hptes 1022 (by decide)
  rw [hs.rooted.table, hs.rooted.resv, PteCopy, if_neg (by decide)] at hpte
  have hused : m'.mem d 1022 / 4096 ∈ used := by
    rw [← List.tail_eq_of_cons_eq h.frames]
    refine List.mem_flatMap.mpr ⟨1022, List.mem_range.mpr (by decide), ?_⟩
    rw [slotFrames, if_pos ⟨not_linked_1022, by omega⟩]
    exact List.mem_cons_self
  refine ⟨?_, ?_, rfl, ?_, hpte, fun e => ?_⟩
  · show m'.mem d 1023 / 4096 = d
    rw [h.self]
    omega
  · show m'.mem d 1023 % 2 = 1
    rw [h.self]
    omega
  · show m'.mem d 1022 % 2 = 1
    omega
  · change m'.mem d 1022 / 4096 = d at e
    exact (List.nodup_cons.mp hs.nodup).1 (List.mem_append_left _ (e ▸ hused))

/-- **A fork** keeps the state well-formed. -/
theorem Kernel.Sound.fork (h : k.Sound free) :
    wp Op.fork.exec (fun _ k' => ∃ free', k'.Sound free') (fun _ _ => True) k := by
  have hs := h.sane
  cases hfree : free with
  | nil =>
    rw [hfree] at hs
    have hhalt := fun Q E => hs.wp_frameCalloc_nil (Q := Q) (E := E)
    simp only [Op.exec, Kernel.onMachine, wp_bind, wp_zoom, cloneDirectory]
    rw [hhalt]
    trivial
  | cons d free =>
  subst hfree
  simp only [Op.exec, Kernel.onMachine, wp_bind, wp_zoom]
  refine (cloneDirectory_spec hs h.source).mono ?_ fun _ _ _ => trivial
  rintro a m' ⟨rfl, used, rest, rfl, hc, -⟩
  rw [wp_modify, Nat.mul_div_cancel_left d (by decide)]
  have hsame : ∀ f, f ∉ d :: (used ++ rest) → m'.mem f = k.mem f := hc.same
  have hproc := h.same_of_frames hsame
  have hd : d ∉ k.live := fun hl => h.notMem_free (dir_mem_frames hl) (by simp)
  have howned : ∀ e ∈ k.live, owned m'.mem e = owned k.mem e := fun e he => hproc.owned_eq he
  have hlist : (k.live ++ [d]).flatMap (owned m'.mem) ++ rest =
    k.frames ++ d :: (used ++ rest) := by
    rw [List.flatMap_append, hproc.flatMap_eq, List.flatMap_singleton, hc.frames]
    simp [Kernel.frames]
  have hslot : ∀ e ∈ k.live ++ [d], ∀ i, HeapSlot i →
    m'.mem e i = k.mem k.machine.dir i := fun e he i hi => by
    rcases List.mem_append.mp he with he | he
    · rw [hsame e (h.notMem_free (dir_mem_frames he))]
      exact h.shared _ h.current e he i hi
    · obtain rfl := List.mem_singleton.mp he
      exact hc.heap_slot hi (h.absent _ h.current i hi)
  refine ⟨rest, hc.sane.chain, ?_, ?_, ?_, ?_, ?_, ?_, ?_, ?_, ?_, ?_, ?_⟩
  · show m'.dir ∈ k.live ++ [d]
    rw [hc.dir]
    exact List.mem_append_left _ h.current
  · show ((k.live ++ [d]).flatMap (owned m'.mem) ++ rest).Nodup
    rw [hlist]
    exact h.nodup
  · show 0 ∉ (k.live ++ [d]).flatMap (owned m'.mem)
    intro h0
    have hmem : 0 ∈ k.frames ++ d :: (used ++ rest) := hlist ▸ List.mem_append_left _ h0
    rcases List.mem_append.mp hmem with hm | hm
    · exact h.zero hm
    · exact h.chain.ne_zero hm rfl
  · intro e he
    rcases List.mem_append.mp he with he | he
    · exact h.rooted_of hproc he he
    · obtain rfl := List.mem_singleton.mp he
      exact hc.rooted h.sane
  · intro e he i hi hp
    show m'.mem e i / 4096 ∉ (k.live ++ [d]).flatMap (owned m'.mem) ++ rest
    change m'.mem e i % 2 = 1 at hp
    rw [hlist, hslot e he i hi]
    exact h.heapTable _ h.current i hi (by rwa [hslot e he i hi] at hp)
  · intro e he i hi hp
    change m'.mem e i % 2 = 0 at hp
    show m'.mem e i = 0
    rw [hslot e he i hi] at hp ⊢
    exact h.absent _ h.current i hi hp
  · intro e he e' he' i hi
    show m'.mem e' i = m'.mem e i
    rw [hslot e he i hi, hslot e' he' i hi]
  · exact (congrArg (· % 4096) hc.heapEnd).trans h.aligned
  · exact hc.heapEnd.trans_le h.heapEnd_le
  · exact h.heapEnd_ge.trans_eq hc.heapEnd.symm
  · intro e he page h1 h2
    have h2 : 4096 * page < k.machine.heapEnd := h2.trans_eq hc.heapEnd
    have hi := heapSlot_of_page h1 (h2.trans_le h.heapEnd_le)
    show (walk m'.mem e page).isSome
    have hsame' : ∀ f, f ∉ k.frames ++ d :: (used ++ rest) → m'.mem f = k.mem f := fun f hf =>
      hsame f fun hm => hf (List.mem_append_right _ hm)
    rw [h.walk_of_same hsame' h.current (hslot e he _ hi) hi]
    exact h.mapped _ h.current page h1 h2

/-! ### The end of a process -/

theorem Kernel.frames_perm {k : Kernel} (hd : d ∈ k.live) {mem : Memory} :
    (k.live.flatMap (owned mem)).Perm (owned mem d ++ (k.live.erase d).flatMap (owned mem)) :=
  (List.perm_cons_erase hd).flatMap_right _

/-- The frames of a process that has ended may be freed. -/
theorem Kernel.Sound.doomed (h : k.Sound free) (hd : d ∈ k.live) (hdir : d ≠ k.machine.dir) :
    Doomed k.machine (k.mem k.machine.dir 1022 / 4096) d free := by
  have hcur : k.machine.dir ∈ k.live.erase d := (List.mem_erase_of_ne hdir.symm).mpr h.current
  have hnd := ((Kernel.frames_perm hd).append_right free).nodup h.nodup
  have hnd' := List.nodup_append.mp (List.nodup_append.mp hnd).1
  have hother : ∀ f ∈ owned k.mem k.machine.dir, f ∈
    (k.live.erase d).flatMap (owned k.mem) := fun f hf => List.mem_flatMap.mpr ⟨_, hcur, hf⟩
  refine ⟨?_, fun f hf => ⟨fun e => ?_, fun e => ?_, fun e => ?_⟩⟩
  · rw [List.append_assoc] at hnd
    exact hnd.sublist ((List.sublist_append_right _ _).append_left _)
  · exact h.zero (e ▸ mem_frames hd hf)
  · exact hnd'.2.2 f hf f (hother f (e ▸ List.mem_cons_self)) rfl
  · exact hnd'.2.2 f hf f (hother f (e ▸ h.table_mem h.current)) rfl

/-- **The end of a process** keeps the state well-formed. -/
theorem Kernel.Sound.exit (h : k.Sound free) (hd : d ∈ k.live) (hdir : d ≠ k.machine.dir) :
    wp (Op.exit d).exec (fun _ k' => ∃ free', k'.Sound free') (fun _ _ => False) k := by
  simp only [Op.exec, Kernel.onMachine, wp_bind, wp_zoom]
  refine (freeDirectory_spec (E := fun _ _ => False) h.sane (h.doomed hd hdir)).mono ?_
    fun _ _ he => he
  rintro - m' hf
  obtain ⟨free', hperm, hsane⟩ := hf.sane
  have hperm₀ := @Kernel.frames_perm d k hd k.mem
  have hnd := ((hperm₀.append_right free).nodup h.nodup)
  have hdisj := (List.nodup_append.mp (List.nodup_append.mp hnd).1).2.2
  have hlive : ∀ e ∈ k.live.erase d, e ∈ k.live := fun e he => List.mem_of_mem_erase he
  have hkeep : ∀ e ∈ k.live.erase d, ∀ f ∈ owned k.mem e, m'.mem f = k.mem f := fun e he f hf' =>
    hf.same f fun hm => hdisj f hm f (List.mem_flatMap.mpr ⟨e, he, hf'⟩) rfl
  have hproc : SameProcesses k (k.live.erase d) m'.mem :=
    ⟨fun e he i _ => congrFun (hkeep e he e List.mem_cons_self) i, fun e he f hf' =>
      hkeep e he f (List.mem_cons_of_mem _ hf')⟩
  have hslot : ∀ e ∈ k.live.erase d, ∀ i, m'.mem e i = k.mem e i := fun e he i =>
    congrFun (hkeep e he e List.mem_cons_self) i
  have hlist : ((k.live.erase d).flatMap (owned m'.mem) ++ free').Perm (k.frames ++ free) := by
    rw [hproc.flatMap_eq]
    refine (hperm.append_left _).trans ?_
    rw [← List.append_assoc]
    exact (List.perm_append_comm.trans hperm₀.symm).append_right free
  refine ⟨free', hsane.chain, ?_, ?_, ?_, ?_, ?_, ?_, ?_, ?_, ?_, ?_, ?_⟩
  · show m'.dir ∈ k.live.erase d
    rw [hf.dir]
    exact (List.mem_erase_of_ne hdir.symm).mpr h.current
  · exact hlist.symm.nodup h.nodup
  · show 0 ∉ (k.live.erase d).flatMap (owned m'.mem)
    rw [hproc.flatMap_eq]
    exact fun h0 => h.zero (hperm₀.symm.subset (List.mem_append_right _ h0))
  · exact fun e he => h.rooted_of hproc he (hlive e he)
  · intro e he i hi hp
    change m'.mem e i % 2 = 1 at hp
    show m'.mem e i / 4096 ∉ _
    rw [hslot e he] at hp ⊢
    exact fun hm => h.heapTable e (hlive e he) i hi hp (hlist.subset hm)
  · intro e he i hi hp
    change m'.mem e i % 2 = 0 at hp
    show m'.mem e i = 0
    rw [hslot e he] at hp ⊢
    exact h.absent e (hlive e he) i hi hp
  · intro e he e' he' i hi
    show m'.mem e' i = m'.mem e i
    rw [hslot e he, hslot e' he']
    exact h.shared e (hlive e he) e' (hlive e' he') i hi
  · exact (congrArg (· % 4096) hf.heapEnd).trans h.aligned
  · exact hf.heapEnd.trans_le h.heapEnd_le
  · exact h.heapEnd_ge.trans_eq hf.heapEnd.symm
  · intro e he page h1 h2
    have h2 : 4096 * page < k.machine.heapEnd := h2.trans_eq hf.heapEnd
    have hi := heapSlot_of_page h1 (h2.trans_le h.heapEnd_le)
    have hsame : ∀ f, f ∉ k.frames ++ free → m'.mem f = k.mem f := fun f hf' =>
      hf.same f fun hm => hf' (List.mem_append_left _ (mem_frames hd hm))
    show (walk m'.mem e page).isSome
    rw [h.walk_of_same hsame (hlive e he) (hslot e he _) hi]
    exact h.mapped e (hlive e he) page h1 h2

/-! ### Growth -/

/-- The state with one more page of the heap is well-formed, if the entries for the heap are. -/
theorem Kernel.Sound.grown {m : Machine} (new : List ℕ) (h : k.Sound (new ++ free))
    (hdir : m.dir = k.machine.dir)
    (hend : m.heapEnd = k.machine.heapEnd + 4096) (hlt : k.machine.heapEnd < heapMax)
    (hchain : FreeList m.mem m.lastFreePage free) (hproc : SameProcesses k k.live m.mem)
    (hshared : ∀ d ∈ k.live, ∀ i, HeapSlot i → m.mem d i = m.mem m.dir i)
    (htable : ∀ i, HeapSlot i → m.mem m.dir i % 2 = 1 → m.mem m.dir i / 4096 ∉ k.frames ++ free)
    (habsent : ∀ i, HeapSlot i → m.mem m.dir i % 2 = 0 → m.mem m.dir i = 0)
    (hmapped : ∀ page, heapStart ≤ 4096 * page → 4096 * page < m.heapEnd →
      (walk m.mem m.dir page).isSome) :
    (k.withMachine m).Sound free := by
  have hframes : k.live.flatMap (owned m.mem) = k.frames := hproc.flatMap_eq
  have hal := h.aligned
  have hle := h.heapEnd_ge
  have hmax : m.heapEnd ≤ heapMax := by
    unfold heapMax at hlt ⊢
    omega
  refine ⟨hchain, ?_, ?_, ?_, fun d hd => h.rooted_of hproc hd hd, ?_, ?_, ?_, ?_, hmax, ?_, ?_⟩
  · exact hdir ▸ h.current
  · show (k.live.flatMap (owned m.mem) ++ free).Nodup
    rw [hframes]
    exact h.nodup.sublist ((List.sublist_append_right _ _).append_left _)
  · show 0 ∉ k.live.flatMap (owned m.mem)
    rw [hframes]
    exact h.zero
  · intro d hd i hi hp
    change m.mem d i % 2 = 1 at hp
    show m.mem d i / 4096 ∉ k.live.flatMap (owned m.mem) ++ free
    rw [hframes]
    rw [hshared d hd i hi] at hp ⊢
    exact htable i hi hp
  · intro d hd i hi hp
    change m.mem d i % 2 = 0 at hp
    show m.mem d i = 0
    rw [hshared d hd i hi] at hp ⊢
    exact habsent i hi hp
  · intro d hd d' hd' i hi
    exact (hshared d' hd' i hi).trans (hshared d hd i hi).symm
  · show m.heapEnd % 4096 = 0
    omega
  · show heapStart ≤ m.heapEnd
    omega
  · intro d hd page h1 h2
    change 4096 * page < m.heapEnd at h2
    have hi := heapSlot_of_page h1 (h2.trans_le hmax)
    have hw : walk m.mem d page = walk m.mem m.dir page := by simp only [walk, hshared d hd _ hi]
    show (walk m.mem d page).isSome
    rw [hw]
    exact hmapped page h1 h2

/-- Another page of the heap. -/
def growPage : MemM Unit := do
  let frame ← frameAlloc
  let m ← read
  map (m.heapEnd / 4096) frame 3
  modify fun m => { m with heapEnd := m.heapEnd + 4096 }

theorem growLoop_succ (n : ℕ) : growLoop (n + 1) = (do
    growPage
    let m ← read
    if m.heapEnd ≥ heapMax then return false
    growLoop n) := by
  simp [growLoop, growPage, bind_assoc]

/-- The heap of the machine has grown by a page. -/
structure Grown (k : Kernel) (m : Machine) : Prop where
  sound : ∃ free, (k.withMachine m).Sound free
  dir : m.dir = k.machine.dir
  heapEnd : m.heapEnd = k.machine.heapEnd + 4096
  tables : ∀ i, k.mem k.machine.dir i ≠ 0 → m.mem m.dir i ≠ 0

theorem walk_isSome {mem : Memory} : (walk mem d page).isSome ↔
    mem d (page / 1024) % 2 = 1 ∧ mem (mem d (page / 1024) / 4096) (page % 1024) % 2 = 1 := by
  unfold walk
  dsimp only
  split <;> simp_all

/-- Where an entry that is present is written, no entry that was present is lost. -/
theorem Memory.set_odd {mem : Memory} {g w w' v : ℕ} (hv : v % 2 = 1) (h : mem g w' % 2 = 1) :
    mem.set f w v g w' % 2 = 1 := by
  by_cases hw : w' = w
  · subst hw
    by_cases hg : g = f
    · subst hg
      rwa [Memory.set_self]
    · rwa [Memory.set_ne hg]
  · rwa [Memory.set_word_ne hw]

/-- Growth into a table that exists. -/
theorem Kernel.Sound.growPage_table {E : Halt → Machine → Prop} (h : k.Sound (f :: free))
    (hlt : k.machine.heapEnd < heapMax)
    (hne : k.mem k.machine.dir (k.machine.heapEnd / 4096 / 1024) ≠ 0) :
    wp growPage (fun _ m => Grown k m) E k.machine := by
  have hs := h.sane
  obtain ⟨hfd, hft⟩ := hs.head_ne
  have hal := h.aligned
  have hlo := h.heapEnd_ge
  have hpage : 4096 * (k.machine.heapEnd / 4096) = k.machine.heapEnd := by omega
  have hi : HeapSlot (k.machine.heapEnd / 4096 / 1024) := heapSlot_of_page (by omega) (by omega)
  generalize hpg : k.machine.heapEnd / 4096 = page at *
  have hlt1024 : page / 1024 < 1024 := by
    unfold HeapSlot at hi
    omega
  have hp : k.mem k.machine.dir (page / 1024) % 2 = 1 := by
    have := h.absent _ h.current _ hi
    omega
  have htake := hs.take (Function.update (k.machine.mem f) 0 0)
  have hkeep : ∀ g, g ≠ f → (k.machine.take f (Function.update (k.machine.mem f) 0 0)).mem g =
    k.mem g := fun g hg => Memory.fill_ne hg
  generalize hm₁ : k.machine.take f (Function.update (k.machine.mem f) 0 0) = m₁ at *
  have hdir : m₁.dir = k.machine.dir := by rw [← hm₁]; rfl
  have hend : m₁.heapEnd = k.machine.heapEnd := by rw [← hm₁]; rfl
  have hslot : m₁.mem m₁.dir (page / 1024) = k.mem k.machine.dir (page / 1024) := by
    rw [hdir, hkeep _ (Ne.symm hfd)]
  have hT := h.heapTable _ h.current _ hi hp
  generalize hTdef : k.mem k.machine.dir (page / 1024) / 4096 = T at *
  simp only [List.mem_append, List.mem_cons, not_or] at hT
  have hwalk := htake.rooted.walk_table hlt1024 (by rw [hslot]; exact hp)
  simp only [growPage, Mem.map, mapWith, wp_bind, hs.wp_frameAlloc, hm₁, wp_read, hend, hpg,
    htake.rooted.wp_pdir, hslot, wp_ite, if_neg hne]
  rw [wp_vwrite hwalk, hslot, hTdef, wp_modify, entry_eq (by decide)]
  have hmem : ∀ g ∈ k.frames, m₁.mem.set T (page % 1024) (4096 * f + 3) g =
      k.mem g := fun g hg => by
    have hgT : g ≠ T := fun e => hT.1 (e ▸ hg)
    rw [Memory.set_ne hgT, hkeep g fun e => h.notMem_free hg (e ▸ List.mem_cons_self)]
  have hcur := hmem _ (dir_mem_frames h.current)
  show Grown k { m₁.withMem (m₁.mem.set T (page % 1024) (4096 * f + 3)) with
    heapEnd := m₁.heapEnd + 4096 }
  refine ⟨⟨free, h.grown [f] hdir (congrArg (· + 4096) hend) hlt ?_ ?_ ?_ ?_ ?_ ?_⟩, hdir,
    congrArg (· + 4096) hend, ?_⟩
  · refine htake.chain.congr fun g hg => ?_
    have hgT : g ≠ T := fun e => hT.2.2 (e ▸ hg)
    exact congrFun (Memory.set_ne hgT) 0
  · refine ⟨fun d hd i _ => congrFun (hmem d (dir_mem_frames hd)) i, fun d hd g hg => ?_⟩
    exact hmem g (mem_frames hd (mem_owned hg))
  · intro d hd i hi
    show m₁.mem.set T _ _ d i = m₁.mem.set T _ _ m₁.dir i
    rw [hdir, hmem d (dir_mem_frames hd), hcur]
    exact h.shared _ h.current d hd i hi
  · intro i hi hp
    change m₁.mem.set T _ _ m₁.dir i % 2 = 1 at hp
    show m₁.mem.set T _ _ m₁.dir i / 4096 ∉ _
    rw [hdir, hcur] at hp ⊢
    have := h.heapTable _ h.current i hi hp
    simp only [List.mem_append, List.mem_cons, not_or] at this ⊢
    exact ⟨this.1, this.2.2⟩
  · intro i hi hp
    change m₁.mem.set T _ _ m₁.dir i % 2 = 0 at hp
    show m₁.mem.set T _ _ m₁.dir i = 0
    rw [hdir, hcur] at hp ⊢
    exact h.absent _ h.current i hi hp
  · intro page' h1 h2
    change 4096 * page' < m₁.heapEnd + 4096 at h2
    show (walk (m₁.mem.set T (page % 1024) (4096 * f + 3)) m₁.dir page').isSome
    rw [walk_isSome, hdir, hcur]
    have hodd : (4096 * f + 3) % 2 = 1 := by omega
    rcases (show page' = page ∨ 4096 * page' < k.machine.heapEnd by omega) with rfl | hlt'
    · rw [hTdef, Memory.set_self]
      exact ⟨hp, hodd⟩
    · obtain ⟨hp', hpte⟩ := walk_isSome.mp (h.mapped _ h.current page' h1 hlt')
      have hT' := h.heapTable _ h.current _ (heapSlot_of_page h1 (hlt'.trans hlt)) hp'
      have hold := hkeep _ fun e => hT' (List.mem_append_right _ (e ▸ List.mem_cons_self))
      refine ⟨hp', Memory.set_odd hodd ?_⟩
      rwa [hold]
  · intro i hi
    show m₁.mem.set T _ _ m₁.dir i ≠ 0
    rw [hdir, hcur]
    exact hi

theorem Rooted.setDir {m : Machine} {t v : ℕ} (h : Rooted m t 0) (hi : i < 1022) :
    Rooted (m.withMem (m.mem.set m.dir i v)) t 0 where
  self := by simpa [Memory.set_word_ne (show 1023 ≠ i by omega)] using h.self
  self_present := by simpa [Memory.set_word_ne (show 1023 ≠ i by omega)] using h.self_present
  table := by simpa [Memory.set_word_ne (show 1022 ≠ i by omega)] using h.table
  table_present := by simpa [Memory.set_word_ne (show 1022 ≠ i by omega)] using h.table_present
  resv := by simpa [Memory.set_ne h.ne] using h.resv
  ne := h.ne

/-- Growth into a table that is missing, when there is one process. -/
theorem Kernel.Sound.growPage_new (h : k.Sound (f :: free)) (hlt : k.machine.heapEnd < heapMax)
    (hone : k.live = [k.machine.dir])
    (h0 : k.mem k.machine.dir (k.machine.heapEnd / 4096 / 1024) = 0) :
    wp growPage (fun _ m => Grown k m) (fun _ _ => True) k.machine := by
  have hs := h.sane
  obtain ⟨hfd, hft⟩ := hs.head_ne
  have hal := h.aligned
  have hlo := h.heapEnd_ge
  have hpage : 4096 * (k.machine.heapEnd / 4096) = k.machine.heapEnd := by omega
  have hi : HeapSlot (k.machine.heapEnd / 4096 / 1024) := heapSlot_of_page (by omega) (by omega)
  generalize hpg : k.machine.heapEnd / 4096 = page at *
  have hlt1022 : page / 1024 < 1022 := by
    unfold HeapSlot at hi
    omega
  have htake := hs.take (Function.update (k.machine.mem f) 0 0)
  have hkeep : ∀ e, e ≠ f → (k.machine.take f (Function.update (k.machine.mem f) 0 0)).mem e =
    k.mem e := fun e he => Memory.fill_ne he
  have hdir : (k.machine.take f (Function.update (k.machine.mem f) 0 0)).dir = k.machine.dir := rfl
  have hend : (k.machine.take f (Function.update (k.machine.mem f) 0 0)).heapEnd =
    k.machine.heapEnd :=
    rfl
  generalize hm₁ : k.machine.take f (Function.update (k.machine.mem f) 0 0) = m₁ at *
  have hslot : m₁.mem m₁.dir (page / 1024) = 0 := by rw [hdir, hkeep _ (Ne.symm hfd), h0]
  cases hfree : free with
  | nil =>
    rw [hfree] at htake
    simp only [growPage, Mem.map, mapWith, wp_bind, hs.wp_frameAlloc, hm₁, wp_read, hend, hpg,
      htake.rooted.wp_pdir, hslot, wp_ite, if_true, htake.wp_frameAlloc_nil]
  | cons g rest =>
  subst hfree
  obtain ⟨hgd, hgt⟩ := htake.head_ne
  have htake₂ := htake.take (Function.update (m₁.mem g) 0 0)
  have hkeep₂ : ∀ e, e ≠ g → (m₁.take g (Function.update (m₁.mem g) 0 0)).mem e =
    m₁.mem e := fun e he => Memory.fill_ne he
  have hdir₂ : (m₁.take g (Function.update (m₁.mem g) 0 0)).dir = m₁.dir := rfl
  have hend₂ : (m₁.take g (Function.update (m₁.mem g) 0 0)).heapEnd = m₁.heapEnd := rfl
  simp only [growPage, Mem.map, mapWith, wp_bind, hs.wp_frameAlloc, hm₁, wp_read, hend, hpg,
    htake.rooted.wp_pdir, hslot, wp_ite, if_true, htake.wp_frameAlloc]
  generalize hm₂ : m₁.take g (Function.update (m₁.mem g) 0 0) = m₂ at *
  rw [hdir] at hdir₂ hgd
  have hr₃ := htake₂.rooted.setDir (v := 4096 * g + 3) hlt1022
  have hr₄ := hr₃.fill (show g ≠ m₂.dir by rwa [hdir₂]) hgt fun _ => 0
  have hentry : (4096 * g + 3) / 4096 = g := by omega
  rw [wp_vwrite htake₂.rooted.walk_pdir, entry_eq (f := f) (by decide),
    entry_eq (f := g) (by decide)]
  dsimp only
  generalize hm₃ : m₂.withMem (m₂.mem.set m₂.dir (page / 1024) (4096 * g + 3)) = m₃ at *
  have hdir₃ : m₃.dir = k.machine.dir := by rw [← hm₃, Machine.withMem_dir, hdir₂]
  have hslot₃ : m₃.mem m₃.dir (page / 1024) = 4096 * g + 3 := by rw [← hm₃]; exact Memory.set_self
  have hslot₄ : m₃.mem.fill g (fun _ => 0) m₃.dir (page / 1024) = 4096 * g + 3 := by
    rw [Memory.fill_ne (by rw [hdir₃]; exact hgd.symm), hslot₃]
  have hw₃ := hr₃.walk_table (i := page / 1024) (by omega) (by rw [hslot₃]; omega)
  have hw₄ := hr₄.walk_table (i := page / 1024) (by omega)
    (by rw [Machine.withMem_mem, Machine.withMem_dir, hslot₄]; omega)
  rw [wp_memsetPage hw₃, hslot₃, hentry, wp_vwrite hw₄, Machine.withMem_mem, Machine.withMem_dir,
    hslot₄, hentry, wp_modify, Machine.withMem_withMem]
  generalize hmem : (m₃.mem.fill g fun _ => 0).set g (page % 1024) (4096 * f + 3) = mem
  have hother : ∀ e, e ≠ f → e ≠ g → e ≠ k.machine.dir → mem e = k.mem e := fun e hef heg hed => by
    rw [← hmem, Memory.set_ne heg, Memory.fill_ne heg, ← hm₃, Machine.withMem_mem,
      Memory.set_ne (by rwa [hdir₂]), hkeep₂ e heg,
      hkeep e hef]
  have hself : mem k.machine.dir (page / 1024) = 4096 * g + 3 := by
    rw [← hmem, Memory.set_ne hgd.symm, ← hdir₃]
    exact hslot₄
  have hwords : ∀ w, w ≠ page / 1024 → mem k.machine.dir w = k.mem k.machine.dir w := fun w hw => by
    rw [← hmem, Memory.set_ne hgd.symm, Memory.fill_ne hgd.symm, ← hm₃, Machine.withMem_mem,
      Memory.set_word_ne hw, hkeep₂ _ hgd.symm, hkeep _ hfd.symm]
  have hnew : mem g (page % 1024) = 4096 * f + 3 := by rw [← hmem, Memory.set_self]
  have hnot : ∀ e ∈ k.frames ++ rest, e ≠ f ∧ e ≠ g := fun e he => by
    have hnd := h.nodup
    rw [List.nodup_append] at hnd
    obtain ⟨-, hnd, hdisj⟩ := hnd
    simp only [List.nodup_cons, List.mem_cons, not_or] at hnd
    rcases List.mem_append.mp he with he | he
    · exact ⟨hdisj e he f (by simp), hdisj e he g (by simp)⟩
    · exact ⟨fun e' => hnd.1.2 (e' ▸ he), fun e' => hnd.2.1 (e' ▸ he)⟩
  have hend₃ : m₃.heapEnd = k.machine.heapEnd := by
    rw [← hm₃]
    exact hend₂.trans hend
  have hcur : ∀ d ∈ k.live, d = k.machine.dir := fun d hd => by simpa [hone] using hd
  have hwords' : ∀ i, i = page / 1024 ∧ mem k.machine.dir i = 4096 * g + 3 ∨
      i ≠ page / 1024 ∧ mem k.machine.dir i = k.mem k.machine.dir i := fun i => by
    by_cases hip : i = page / 1024
    · exact .inl ⟨hip, hip ▸ hself⟩
    · exact .inr ⟨hip, hwords i hip⟩
  show Grown k { m₃.withMem mem with heapEnd := m₃.heapEnd + 4096 }
  refine ⟨⟨rest, h.grown [f, g] hdir₃ (congrArg (· + 4096) hend₃) hlt ?_ ⟨?_, ?_⟩ ?_ ?_ ?_ ?_⟩,
    hdir₃, congrArg (· + 4096) hend₃, ?_⟩
  · have hchain : FreeList m₂.mem m₃.lastFreePage rest := by
      rw [← hm₃]
      exact htake₂.chain
    refine hchain.congr fun e he => ?_
    obtain ⟨hef, heg⟩ := hnot e (List.mem_append_right _ he)
    have hed : e ≠ k.machine.dir := fun e' =>
      h.notMem_free (dir_mem_frames h.current)
        (by rw [← e']; exact List.mem_cons_of_mem _ (List.mem_cons_of_mem _ he))
    show mem e 0 = m₂.mem e 0
    rw [hother e hef heg hed, hkeep₂ e heg, hkeep e hef]
  · intro d hd i hi'
    rw [hcur d hd]
    exact hwords i fun e => hi' (e ▸ hi)
  · intro d hd e he
    rw [hcur d hd] at he
    obtain ⟨hef, heg⟩ := hnot e (List.mem_append_left _ (mem_frames h.current (mem_owned he)))
    exact hother e hef heg fun e' => h.dir_notMem_slots h.current (by rwa [e'] at he)
  · intro d hd i _
    rw [hcur d hd, ← hdir₃]
    rfl
  · intro i hi' hp
    change mem m₃.dir i % 2 = 1 at hp
    show mem m₃.dir i / 4096 ∉ _
    rw [hdir₃] at hp ⊢
    rcases hwords' i with ⟨-, hv⟩ | ⟨-, hv⟩
    · rw [hv, hentry]
      exact fun hm => (hnot g hm).2 rfl
    · rw [hv] at hp ⊢
      have := h.heapTable _ h.current i hi' hp
      simp only [List.mem_append, List.mem_cons, not_or] at this ⊢
      exact ⟨this.1, this.2.2.2⟩
  · intro i hi' hp
    change mem m₃.dir i % 2 = 0 at hp
    show mem m₃.dir i = 0
    rw [hdir₃] at hp ⊢
    rcases hwords' i with ⟨-, hv⟩ | ⟨-, hv⟩
    · omega
    · rw [hv] at hp ⊢
      exact h.absent _ h.current i hi' hp
  · intro page' h1 h2
    change 4096 * page' < m₃.heapEnd + 4096 at h2
    show (walk mem m₃.dir page').isSome
    rw [walk_isSome, hdir₃]
    rcases (show page' = page ∨ 4096 * page' < k.machine.heapEnd by omega) with rfl | hlt'
    · rw [hself, hentry, hnew]
      omega
    · obtain ⟨hp', hpte⟩ := walk_isSome.mp (h.mapped _ h.current page' h1 hlt')
      have hi' := heapSlot_of_page h1 (hlt'.trans hlt)
      have hT' := h.heapTable _ h.current _ hi' hp'
      simp only [List.mem_append, List.mem_cons, not_or] at hT'
      rcases hwords' (page' / 1024) with ⟨hv, -⟩ | ⟨-, hv⟩
      · rw [hv, h0] at hp'
        omega
      · rw [hv, hother _ hT'.2.1 hT'.2.2.1 fun e =>
          hT'.1 (by rw [e]; exact dir_mem_frames h.current)]
        exact ⟨hp', hpte⟩
  · intro i h'
    show mem m₃.dir i ≠ 0
    rw [hdir₃]
    rcases hwords' i with ⟨-, hv⟩ | ⟨-, hv⟩
    · omega
    · rwa [hv]

/-- **A page of growth** keeps the state well-formed, unless it needs a table that other processes
miss. -/
theorem Kernel.Sound.growPage (h : k.Sound free) (hlt : k.machine.heapEnd < heapMax)
    (hc : k.live = [k.machine.dir] ∨ k.mem k.machine.dir (k.machine.heapEnd / 4096 / 1024) ≠ 0) :
    wp growPage (fun _ m => Grown k m) (fun _ _ => True) k.machine := by
  have hs := h.sane
  match free, h, hs with
  | [], _, hs =>
    simp only [Mem.growPage, wp_bind]
    rw [hs.wp_frameAlloc_nil]
    trivial
  | f :: free, h, hs =>
    by_cases h0 : k.mem k.machine.dir (k.machine.heapEnd / 4096 / 1024) = 0
    case neg => exact h.growPage_table hlt h0
    have hone := hc.resolve_right fun hne => hne h0
    exact h.growPage_new hlt hone h0

/-- The growth loop. -/
theorem Kernel.Sound.growLoop (n : ℕ) (h : k.Sound free) (hlt : k.machine.heapEnd < heapMax)
    (hc : ∀ page, k.machine.heapEnd / 4096 ≤ page → page < k.machine.heapEnd / 4096 + n →
      k.live = [k.machine.dir] ∨ k.mem k.machine.dir (page / 1024) ≠ 0) :
    wp (growLoop n) (fun _ m => ∃ free', (k.withMachine m).Sound free')
      (fun _ _ => True) k.machine := by
  induction n generalizing k free with
  | zero => exact ⟨free, h⟩
  | succ n ih =>
    rw [growLoop_succ, wp_bind]
    refine (h.growPage hlt (hc _ le_rfl (by omega))).mono ?_ fun _ _ _ => trivial
    rintro - m ⟨⟨free', h'⟩, hdir, hend, htables⟩
    rw [wp_bind, wp_read, wp_ite]
    split
    · exact ⟨free', h'⟩
    · refine (ih h' (show m.heapEnd < heapMax by omega) ?_)
      intro page h1 h2
      change m.heapEnd / 4096 ≤ page at h1
      change page < m.heapEnd / 4096 + n at h2
      rcases hc page (by omega) (by omega) with hl | hne
      · left
        show k.live = [m.dir]
        rw [hdir, hl]
      · right
        exact htables _ hne

/-! ### Runs -/

/-- A careful operation keeps the state well-formed. -/
theorem Kernel.Sound.step {k' : Kernel} (h : k.Sound free) (hs : Kernel.Step Op.Careful k k') :
    ∃ free', k'.Sound free' := by
  obtain ⟨op, hallow, hcareful, hexec⟩ := hs
  cases op with
  | fork => exact h.fork.ok hexec
  | exit d => exact (h.exit hallow.1 hallow.2).ok hexec
  | grow increment =>
    have hloop := h.growLoop (pages increment) hcareful.1 hcareful.2
    have hwp : wp (Op.grow increment).exec (fun _ k' => ∃ free', k'.Sound free')
      (fun _ _ => True) k := by
      show wp ((fun _ => PUnit.unit) <$> Kernel.onMachine (sbrk increment)) _ _ _
      rw [wp_map, Kernel.onMachine, wp_zoom, sbrk, wp_bind, wp_read]
      dsimp only
      rw [wp_bind]
      exact hloop
    exact hwp.ok hexec
  | switch d =>
    obtain rfl : k.withMachine { k.machine with dir := d } = k' := by cases hexec; rfl
    exact ⟨free, h.chain, hallow, h.nodup, h.zero, h.rooted, h.heapTable, h.absent, h.shared,
      h.aligned, h.heapEnd_le, h.heapEnd_ge, h.mapped⟩

/-- **The kernel heap is shared** in every run in which it does not grow into a table that another
process misses. -/
theorem kernel_heap_shared {k k' : Kernel} {free : List ℕ} (h : k.Sound free)
    (hr : Reach (Kernel.Step Op.Careful) k k') :
    k'.HeapShared := by
  obtain ⟨free', h'⟩ :=
    hr.invariant (I := fun k : Kernel => ∃ free, k.Sound free) (fun _ _ ⟨_, h⟩ => h.step) ⟨free, h⟩
  exact h'.heapShared

end

/-- A directory in frame 1 that maps itself, a table for the reserved page in frame 2, and a table
of the kernel heap in frame 3 that is full. -/
def fullMem : Memory
  | 1, 1023 => 4096 + 3
  | 1, 1022 => 4096 * 2 + 3
  | 1, 832 => 4096 * 3 + 3
  | 3, w => 4096 * (16 + w) + 3
  | 5, 0 => 4096 * 6
  | 6, 0 => 4096 * 7
  | 7, 0 => 4096 * 8
  | _, _ => 0

/-- One process with this memory, and the frames 5 to 8 free. -/
def fullKernel : Kernel := ⟨⟨fullMem, 1, 4096 * 5, 4, heapStart + 4096 * 1024⟩, [1]⟩

theorem fullKernel_sound : fullKernel.Sound [5, 6, 7, 8] := by
  have hframes : fullKernel.frames = [1, 2] := by decide +kernel
  have hslot : ∀ i, HeapSlot i → fullMem 1 i = 4096 * 3 + 3 ∨ fullMem 1 i = 0 := fun i hi => by
    unfold HeapSlot at hi
    unfold fullMem
    split <;> simp_all
  refine ⟨⟨rfl, by decide, rfl, by decide, rfl, by decide, rfl, by decide, rfl⟩,
    List.mem_singleton_self 1, ?_, ?_, ?_, ?_, ?_, ?_,
    by decide, by decide, by decide, ?_⟩
  · rw [hframes]
    decide
  · rw [hframes]
    decide
  · intro d hd
    obtain rfl := List.mem_singleton.mp hd
    exact ⟨rfl, rfl, rfl, rfl, rfl, by decide⟩
  · intro d hd i hi hp
    obtain rfl := List.mem_singleton.mp hd
    change fullMem 1 i % 2 = 1 at hp
    show fullMem 1 i / 4096 ∉ _
    rw [hframes]
    rcases hslot i hi with h | h <;> rw [h] at hp ⊢
    · decide
    · cases hp
  · intro d hd i hi hp
    obtain rfl := List.mem_singleton.mp hd
    change fullMem 1 i % 2 = 0 at hp
    rcases hslot i hi with h | h
    · rw [h] at hp
      cases hp
    · exact h
  · intro d hd d' hd' i _
    obtain rfl := List.mem_singleton.mp hd
    obtain rfl := List.mem_singleton.mp hd'
    rfl
  · intro d hd page h1 h2
    obtain rfl := List.mem_singleton.mp hd
    change 4096 * page < heapStart + 4096 * 1024 at h2
    have hi : page / 1024 = 832 := by
      unfold heapStart at h1 h2
      omega
    have hpte : ∀ w, fullMem 3 w = 4096 * (16 + w) + 3 := fun w => by
      unfold fullMem
      split <;> simp_all
    show (walk fullMem 1 page).isSome
    rw [walk_isSome, hi]
    refine ⟨rfl, ?_⟩
    show fullMem 3 _ % 2 = 1
    rw [hpte]
    omega

theorem Op.exec_of_returned {op : Op} {k : Kernel} (h : (op.exec k).returned = true) :
    op.exec k = .ok () (op.exec k).state :=
  Outcome.eq_ok_of_returned h

/-- One process grows the heap and forks. -/
theorem kernel_heap_shared_fork :
    ∃ k', Reach (Kernel.Step Op.Careful) fullKernel k' ∧ k'.live = [1, 7] ∧ k'.HeapShared := by
  have hok₁ : ((Op.grow 4096).exec fullKernel).returned = true := by decide +kernel
  have hok₂ : (Op.fork.exec ((Op.grow 4096).exec fullKernel).state).returned = true := by
    decide +kernel
  have hlive : (Op.fork.exec ((Op.grow 4096).exec fullKernel).state).state.live = [1, 7] := by
    decide +kernel
  have hexec₁ := Op.exec_of_returned hok₁
  have hexec₂ := Op.exec_of_returned hok₂
  generalize ((Op.grow 4096).exec fullKernel).state = k₁ at *
  generalize (Op.fork.exec k₁).state = k₂ at *
  have hstep₁ : Kernel.Step Op.Careful fullKernel k₁ :=
    ⟨.grow 4096, trivial, ⟨by decide, fun _ _ _ => .inl rfl⟩, hexec₁⟩
  have hstep₂ : Kernel.Step Op.Careful k₁ k₂ := ⟨.fork, trivial, trivial, hexec₂⟩
  have hrun := (Relation.ReflTransGen.single hstep₁).tail hstep₂
  exact ⟨k₂, hrun, hlive, kernel_heap_shared fullKernel_sound hrun⟩

/-- **A heap that is not shared**: a process forks when the last table of the heap is full, and
makes the heap grow. The new table is in its directory only. -/
theorem heap_not_shared : ∃ k k' : Kernel, (∃ free, k.Sound free) ∧ k.live = [k.machine.dir] ∧
    Reach (Kernel.Step fun _ _ => True) k k' ∧ ¬k'.HeapShared := by
  have hok₁ : (Op.fork.exec fullKernel).returned = true := by decide +kernel
  have hok₂ : ((Op.grow 4096).exec (Op.fork.exec fullKernel).state).returned = true := by
    decide +kernel
  have hlive : ((Op.grow 4096).exec (Op.fork.exec fullKernel).state).state.live = [1, 5] := by
    decide +kernel
  have hend : 4096 * (heapStart / 4096 + 1024) <
    ((Op.grow 4096).exec (Op.fork.exec fullKernel).state).state.machine.heapEnd := by decide +kernel
  have hnone : walk ((Op.grow 4096).exec (Op.fork.exec fullKernel).state).state.mem 5
    (heapStart / 4096 + 1024) = none := by
    decide +kernel
  have hexec₁ := Op.exec_of_returned hok₁
  have hexec₂ := Op.exec_of_returned hok₂
  generalize (Op.fork.exec fullKernel).state = k₁ at *
  generalize ((Op.grow 4096).exec k₁).state = k₂ at *
  have hstep₁ : Kernel.Step (fun _ _ => True) fullKernel k₁ := ⟨.fork, trivial, trivial, hexec₁⟩
  have hstep₂ : Kernel.Step (fun _ _ => True) k₁ k₂ := ⟨.grow 4096, trivial, trivial, hexec₂⟩
  refine ⟨fullKernel, k₂, ⟨_, fullKernel_sound⟩, rfl,
    (Relation.ReflTransGen.single hstep₁).tail hstep₂, fun hshared => ?_⟩
  obtain ⟨f, hf⟩ := hshared (heapStart / 4096 + 1024) (by decide) hend
  have h5 := hf 5 (by simp [hlive])
  rw [hnone] at h5
  cases h5

end Cosiris.Mem
