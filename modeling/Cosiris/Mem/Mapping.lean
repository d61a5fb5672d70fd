import Cosiris.Mem.Frames
import Mathlib.Data.Nat.Bitwise

/-!
# Mapping pages

`map` and `unmap` over whole runs. What a page is mapped to, for the processor, is its frame and
what is allowed there: the directory and the table have to allow it both. A run
of calls should leave every page as the last call for it has said. It does as long as no call
meets what `map` gets wrong (`map_run_translates`): a new table gets the flags of the first page
that is mapped in it, so that a page that is unmapped there leaves an entry that is not
present and not empty, and a page that is allowed more than the first one stays without; and
`frame_alloc`, which gives the frame of the table, takes the reserved page for itself.
-/

namespace Cosiris.Mem

open Prog

/-- What the processor makes of a page that is mapped. -/
structure Access where
  frame : ℕ
  writable : Bool
  user : Bool
  deriving DecidableEq

/-- A page is writable, or open to the user, if the directory and the table say so. -/
def Mapping.access (x : Mapping) : Access :=
  ⟨x.frame, x.dirFlags.testBit 1 && x.flags.testBit 1, x.dirFlags.testBit 2 && x.flags.testBit 2⟩

/-- What the processor makes of a page. -/
def access (m : Machine) (page : ℕ) : Option Access := (walk m.mem m.dir page).map Mapping.access

/-- A call of `map` or `unmap`; the frame stands for its address. -/
inductive Call where
  | map (page frame flags : ℕ)
  | unmap (page : ℕ)
  deriving DecidableEq

namespace Call

def page : Call → ℕ
  | map page _ _ | unmap page => page

def frame : Call → ℕ
  | map _ frame _ => frame
  | unmap _ => 0

def flags : Call → ℕ
  | map _ _ flags => flags
  | unmap _ => 0

def exec : Call → MemM Unit
  | map page frame flags => Mem.map page (4096 * frame) flags
  | unmap page => Mem.unmap page

/-- What the page is after the call. -/
def access : Call → Option Access
  | map _ frame flags =>
      if flags % 2 = 1 then some ⟨frame, flags.testBit 1, flags.testBit 2⟩ else none
  | unmap _ => none

theorem exec_eq (c : Call) : c.exec = Mem.map c.page (4096 * c.frame) c.flags := by
  cases c <;> rfl

theorem access_eq (c : Call) :
    c.access = if c.flags % 2 = 1 then some ⟨c.frame, c.flags.testBit 1, c.flags.testBit 2⟩
      else none := by
  cases c <;> rfl

end Call

/-- What the last of the calls for a page has made of it, if there is one. -/
def lastAccess (calls : List Call) (page : ℕ) (before : Option Access) : Option Access :=
  match calls.reverse.find? fun c => decide (c.page = page) with
  | some c => c.access
  | none => before

/-- The directory entry allows what the flags of a page allow. -/
def Grants (pde flags : ℕ) : Prop :=
  (flags.testBit 1 = true → (pde % 4096).testBit 1 = true) ∧
    (flags.testBit 2 = true → (pde % 4096).testBit 2 = true)

instance (pde flags : ℕ) : Decidable (Grants pde flags) := inferInstanceAs (Decidable (_ ∧ _))

/-- A call that meets nothing that `map` gets wrong: in a slot with a table, the table may be used
as the page is; for a slot without one, the page is present, and the frame of the table can be had
without the loss of a page that is mapped. -/
structure Call.Careful (c : Call) (m : Machine) : Prop where
  page : c.page < 1023 * 1024
  flags : c.flags < 4096
  grants : m.mem m.dir (c.page / 1024) ≠ 0 → c.flags % 2 = 1 →
      Grants (m.mem m.dir (c.page / 1024)) c.flags
  present : m.mem m.dir (c.page / 1024) = 0 → c.flags % 2 = 1
  table : m.mem m.dir (c.page / 1024) = 0 → m.mem m.dir 1022 ≠ 0
  resv : m.mem m.dir (c.page / 1024) = 0 → walk m.mem m.dir resvPage = none

/-- The current directory: its slots are empty or present, each present one has a table of its
own, and the free frames are none of these. -/
structure Directory (m : Machine) (free : List ℕ) : Prop extends SelfMapped m where
  slots : ∀ i, i < 1023 → m.mem m.dir i = 0 ∨ m.mem m.dir i % 2 = 1
  apart : ∀ i j, i < 1023 → j < 1023 → m.mem m.dir i % 2 = 1 → m.mem m.dir j % 2 = 1 →
    m.mem m.dir i / 4096 = m.mem m.dir j / 4096 → i = j
  own : ∀ i, i < 1023 → m.mem m.dir i % 2 = 1 → m.mem m.dir i / 4096 ≠ m.dir ∧
      m.mem m.dir i / 4096 ∉ free
  chain : FreeList m.mem m.lastFreePage free
  nodup : free.Nodup
  dir_notMem : m.dir ∉ free

section

variable {m m' : Machine} {t f i j v page frame flags : ℕ} {free rest : List ℕ}
    {E : Halt → Machine → Prop}

/-- What is changed outside the directory and its tables leaves the directory as it is. -/
theorem Directory.congr (h : Directory m free) (hdir : m'.dir = m.dir)
    (hd : m'.mem m.dir = m.mem m.dir) (hchain : FreeList m'.mem m'.lastFreePage rest)
    (hsub : rest.Sublist free) : Directory m' rest where
  self := by rw [hdir, hd]; exact h.self
  present := by rw [hdir, hd]; exact h.present
  slots i hi := by rw [hdir, hd]; exact h.slots i hi
  apart i j hi hj := by rw [hdir, hd]; exact h.apart i j hi hj
  own i hi := by
    rw [hdir, hd]
    exact fun hp => ⟨(h.own i hi hp).1, fun hm => (h.own i hi hp).2 (hsub.subset hm)⟩
  chain := hchain
  nodup := hsub.nodup h.nodup
  dir_notMem := by rw [hdir]; exact fun hm => h.dir_notMem (hsub.subset hm)

/-- A word of the table of slot `i` is written. -/
theorem Directory.setEntry (h : Directory m free) (hi : i < 1023) (hp : m.mem m.dir i % 2 = 1) :
    Directory (m.withMem (m.mem.set (m.mem m.dir i / 4096) j v)) free := by
  obtain ⟨hd, hf⟩ := h.own i hi hp
  refine h.congr rfl (Memory.set_ne hd.symm) (h.chain.congr fun g hg => ?_) (List.Sublist.refl _)
  have hne : g ≠ m.mem m.dir i / 4096 := fun e => hf (e ▸ hg)
  rw [Machine.withMem_mem, Memory.set_ne hne]

theorem access_absent (hp : m.mem m.dir (page / 1024) = 0) : access m page = none := by
  simp [access, walk, hp]

theorem access_of_eq (h1 : m'.mem m'.dir (page / 1024) = m.mem m.dir (page / 1024))
    (h2 : m.mem m.dir (page / 1024) % 2 = 1 →
      m'.mem (m.mem m.dir (page / 1024) / 4096) (page % 1024) =
      m.mem (m.mem m.dir (page / 1024) / 4096) (page % 1024)) : access m' page = access m page := by
  simp only [access, walk, h1]
  by_cases hp : m.mem m.dir (page / 1024) % 2 = 1
  · rw [h2 hp]
  · simp only [hp, false_and, if_false]

/-- The entry of a page is written: the page has changed, and no other. -/
theorem Directory.access_setEntry (h : Directory m free) (hpage : page < 1023 * 1024)
    (hp : m.mem m.dir (page / 1024) % 2 = 1) (hflags : flags < 4096)
    (hg : flags % 2 = 1 → Grants (m.mem m.dir (page / 1024)) flags) {q : ℕ} (hq : q < 1023 * 1024) :
    access (m.withMem
      (m.mem.set (m.mem m.dir (page / 1024) / 4096) (page % 1024) (4096 * frame + flags))) q =
      if q = page then (if flags % 2 =
        1 then some ⟨frame, flags.testBit 1, flags.testBit 2⟩ else none) else access m q := by
  obtain ⟨hd, -⟩ := h.own (page / 1024) (by omega) hp
  have hdir : ∀ v, m.mem.set (m.mem m.dir (page / 1024) / 4096) (page % 1024) v m.dir =
    m.mem m.dir := fun v => Memory.set_ne hd.symm
  split
  case isTrue hqp =>
    subst hqp
    have h1 : (4096 * frame + flags) % 2 = flags % 2 := by omega
    have h2 : (4096 * frame + flags) % 4096 = flags := by omega
    have h3 : (4096 * frame + flags) / 4096 = frame := by omega
    simp only [access, walk, Machine.withMem_mem, Machine.withMem_dir, hdir, Memory.set_self, hp,
      true_and, h1, h2, h3]
    split
    · rename_i hf
      obtain ⟨hw, hu⟩ := hg hf
      simp only [Option.map_some, Mapping.access, Option.some.injEq, Access.mk.injEq, true_and]
      exact ⟨by cases hb : flags.testBit 1 <;> simp_all, by cases hb : flags.testBit 2 <;> simp_all⟩
    · rfl
  case isFalse hqp =>
    refine access_of_eq (by simp only [Machine.withMem_mem, Machine.withMem_dir, hdir])
      fun hpq => ?_
    by_cases hi : q / 1024 = page / 1024
    · rw [hi]
      exact Memory.set_word_ne (by omega)
    · rw [Machine.withMem_mem,
        Memory.set_ne fun e => hi (h.apart _ _ (by omega) (by omega) hpq hp e)]

/-- **A slot with a table**: the entry of the page is written. -/
theorem Directory.wp_setEntry (h : Directory m free) {Q : Unit → Machine → Prop} (hi : i < 1023)
    (hp : m.mem m.dir i % 2 = 1) (hflags : flags < 4096) :
    wp (vwrite (ptablesPage + i) j (4096 * frame ||| flags)) Q E m =
      Q () (m.withMem (m.mem.set (m.mem m.dir i / 4096) j (4096 * frame + flags))) := by
  rw [wp_vwrite (h.walk_table (by omega) hp), entry_eq hflags]

/-! ### A new table -/

/-- What is mapped in the reserved page does not matter to `frame_alloc`, which maps it anew. -/
theorem Rooted.wp_frameAlloc_unmap {Q : ℕ → Machine → Prop} (h : Rooted m t v)
    (hl : m.lastFreePage = 4096 * f)
    (h0 : f ≠ 0) : wp frameAlloc Q E m = wp frameAlloc Q E (m.withMem (m.mem.set t 1022 0)) := by
  have hset : ∀ x, (m.mem.set t 1022 0).set t 1022 x = m.mem.set t 1022 x := fun x => by
    simp only [Memory.set, Function.update_idem, Function.update_self]
  have hl' : (m.withMem (m.mem.set t 1022 0)).lastFreePage = 4096 * f := hl
  have hne : 4096 * f ≠ 0 := by omega
  simp only [frameAlloc, wp_bind, wp_read, kassert, hl, hl', ne_eq, hne, not_false_eq_true,
    decide_true, if_true, wp_pure, h.wp_tempMap, (h.setResv 0).wp_tempMap, Machine.withMem_mem,
      Machine.withMem_withMem, hset]

/-- A frame for a table has been taken: it is in no use, and no page has changed. -/
structure Taken (m : Machine) (f : ℕ) (rest : List ℕ) (m' : Machine) : Prop where
  directory : Directory m' rest
  dir : m'.dir = m.dir
  entries : m'.mem m'.dir = m.mem m.dir
  unused : ∀ i, i < 1023 → m'.mem m'.dir i % 2 = 1 → m'.mem m'.dir i / 4096 ≠ f
  ne : f ≠ m'.dir
  notMem : f ∉ rest
  accesses : ∀ q, q < 1023 * 1024 → access m' q = access m q

/-- `frame_alloc` takes a frame, and unmaps the reserved page. -/
theorem Directory.frameAlloc (h : Directory m (f :: rest)) (ht : m.mem m.dir 1022 ≠ 0)
    (hresv : walk m.mem m.dir resvPage = none) :
    wp frameAlloc (fun a m' => a = 4096 * f ∧ Taken m f rest m') E m := by
  have hp : m.mem m.dir 1022 % 2 = 1 := (h.slots 1022 (by decide)).resolve_left ht
  obtain ⟨htd, htf⟩ := h.own 1022 (by decide) hp
  generalize htt : m.mem m.dir 1022 / 4096 = t at htd htf
  obtain ⟨hlast, h0, -⟩ := id h.chain
  obtain ⟨hfr, -⟩ := List.nodup_cons.mp h.nodup
  have hft : f ≠ t := fun e => htf (by simp [e])
  have hfd : f ≠ m.dir := fun e => h.dir_notMem (by simp [e])
  have hroot : Rooted m t (m.mem t 1022) := ⟨h.self, h.present, htt, hp, rfl, htd⟩
  have hsane : Sane (m.withMem (m.mem.set t 1022 0)) t (f :: rest) := by
    refine ⟨hroot.setResv 0, h.chain.congr fun g hg => ?_, h.nodup, h.dir_notMem, htf⟩
    have hne : g ≠ t := fun e => htf (e ▸ hg)
    rw [Machine.withMem_mem, Memory.set_ne hne]
  rw [hroot.wp_frameAlloc_unmap hlast h0, hsane.wp_frameAlloc]
  generalize hc : Function.update ((m.withMem (m.mem.set t 1022 0)).mem f) 0 0 = c
  have hframe : ∀ g, g ≠ f → g ≠ t → (m.mem.set t 1022 0).fill f c g = m.mem g := fun g h1 h2 => by
    rw [Memory.fill_ne h1, Memory.set_ne h2]
  have hdir : (m.mem.set t 1022 0).fill f c m.dir = m.mem m.dir := hframe _ hfd.symm htd.symm
  have hunused : ∀ i, i < 1023 → m.mem m.dir i % 2 = 1 → m.mem m.dir i / 4096 ≠ f :=
    fun i hi hpi e => (h.own i hi hpi).2 (by simp [e])
  refine ⟨rfl, h.congr rfl hdir (hsane.take c).chain (List.sublist_cons_self _ _), rfl,
    hdir, fun i hi hpi => ?_, hfd, hfr, fun q hq => ?_⟩
  · change (m.mem.set t 1022 0).fill f c m.dir i % 2 = 1 at hpi
    show (m.mem.set t 1022 0).fill f c m.dir i / 4096 ≠ f
    rw [hdir] at hpi ⊢
    exact hunused i hi hpi
  by_cases hqr : q = resvPage
  · have hnone : access m q = none := by rw [hqr, access, hresv]; rfl
    have h1 : resvPage / 1024 = 1022 := rfl
    have h2 : resvPage % 1024 = 1022 := rfl
    rw [hnone, hqr]
    show Option.map _ (walk ((m.mem.set t 1022 0).fill f c) m.dir resvPage) = none
    simp only [walk, h1, h2, hdir, htt, Memory.fill_ne hft.symm, Memory.set_self]
    rw [if_neg fun hh => by omega]
    rfl
  · refine access_of_eq (congrFun hdir _) fun hpq => ?_
    show (m.mem.set t 1022 0).fill f c _ _ = _
    rw [Memory.fill_ne (hunused _ (by omega) hpq)]
    by_cases hi : q / 1024 = 1022
    · refine Memory.set_word_ne fun hw => hqr ?_
      unfold resvPage
      omega
    · rw [Memory.set_ne fun e => hi (h.apart _ _ (by omega) (by decide) hpq hp (e.trans htt.symm))]

/-- **A slot without a table**: a table is put in, with nothing mapped. -/
theorem Directory.newTable (h : Directory m rest) (hf : f ∉ rest) (hfd : f ≠ m.dir)
    (hun : ∀ i, i < 1023 → m.mem m.dir i % 2 = 1 → m.mem m.dir i / 4096 ≠ f) (hi : i < 1023)
    (h0 : m.mem m.dir i = 0)
    (hflags : flags < 4096) (hp : flags % 2 = 1) :
    wp (do vwrite pdirPage i (4096 * f ||| flags); memsetPage (ptablesPage + i))
      (fun _ m' => Directory m' rest ∧ m'.dir = m.dir ∧ m'.mem m'.dir i = 4096 * f + flags ∧
        ∀ q, q < 1023 * 1024 → access m' q = access m q) E m := by
  have hdiv : (4096 * f + flags) / 4096 = f := by omega
  let m₁ := m.withMem (m.mem.set m.dir i (4096 * f + flags))
  have hother : ∀ j, j ≠ i → m₁.mem m.dir j = m.mem m.dir j := fun j hj => Memory.set_word_ne hj
  have hnew : m₁.mem m.dir i = 4096 * f + flags := Memory.set_self
  have hself₁ : SelfMapped m₁ := by
    refine ⟨?_, ?_⟩
    · show m₁.mem m.dir 1023 / 4096 = m.dir
      rw [hother _ (by omega), h.self]
    · show m₁.mem m.dir 1023 % 2 = 1
      rw [hother _ (by omega), h.present]
  have hpres : m₁.mem m₁.dir i % 2 = 1 := by
    show m₁.mem m.dir i % 2 = 1
    omega
  have hframe : m₁.mem m₁.dir i / 4096 = f := by
    show m₁.mem m.dir i / 4096 = f
    rw [hnew, hdiv]
  rw [wp_bind, wp_vwrite h.walk_pdir, entry_eq hflags]
  show wp (memsetPage (ptablesPage + i)) _ E m₁
  rw [wp_memsetPage (hself₁.walk_table (by omega) hpres), hframe]
  have hd : m₁.mem.fill f (fun _ => 0) m.dir = m₁.mem m.dir := Memory.fill_ne hfd.symm
  have hsame : ∀ g, g ≠ f → g ≠ m.dir → m₁.mem.fill f (fun _ => 0) g = m.mem g := fun g h1 h2 => by
    rw [Memory.fill_ne h1]
    exact Memory.set_ne h2
  have hrow : ∀ j, j ≠ i → m₁.mem.fill f (fun _ => 0) m.dir j = m.mem m.dir j :=
    fun j hj => by rw [hd, hother j hj]
  have hrowi : m₁.mem.fill f (fun _ => 0) m.dir i = 4096 * f + flags := by rw [hd, hnew]
  refine ⟨⟨⟨?_, ?_⟩, fun j hj => ?_, fun j k hj hk hpj hpk e => ?_, fun j hj hpj => ?_, ?_, h.nodup,
    h.dir_notMem⟩, rfl, hrowi, fun q hq => ?_⟩
  · show m₁.mem.fill f (fun _ => 0) m.dir 1023 / 4096 = m.dir
    rw [hrow _ (by omega), h.self]
  · show m₁.mem.fill f (fun _ => 0) m.dir 1023 % 2 = 1
    rw [hrow _ (by omega), h.present]
  · show m₁.mem.fill f (fun _ => 0) m.dir j = 0 ∨ m₁.mem.fill f (fun _ => 0) m.dir j % 2 = 1
    by_cases hji : j = i
    · rw [hji, hrowi]
      omega
    · rw [hrow j hji]
      exact h.slots j hj
  · change m₁.mem.fill f (fun _ => 0) m.dir j % 2 = 1 at hpj
    change m₁.mem.fill f (fun _ => 0) m.dir k % 2 = 1 at hpk
    change m₁.mem.fill f (fun _ => 0) m.dir j / 4096 =
      m₁.mem.fill f (fun _ => 0) m.dir k / 4096 at e
    by_cases hji : j = i <;> by_cases hki : k = i
    · rw [hji, hki]
    · rw [hji, hrowi, hdiv, hrow k hki] at e
      rw [hrow k hki] at hpk
      exact absurd e.symm (hun k hk hpk)
    · rw [hki, hrowi, hdiv, hrow j hji] at e
      rw [hrow j hji] at hpj
      exact absurd e (hun j hj hpj)
    · rw [hrow j hji] at hpj e
      rw [hrow k hki] at hpk e
      exact h.apart j k hj hk hpj hpk e
  · change m₁.mem.fill f (fun _ => 0) m.dir j % 2 = 1 at hpj
    show m₁.mem.fill f (fun _ => 0) m.dir j / 4096 ≠ m.dir ∧
      m₁.mem.fill f (fun _ => 0) m.dir j / 4096 ∉ rest
    by_cases hji : j = i
    · rw [hji, hrowi, hdiv]
      exact ⟨hfd, hf⟩
    · rw [hrow j hji] at hpj ⊢
      exact h.own j hj hpj
  · refine h.chain.congr fun g hg =>
      congrFun (hsame g (fun e => hf (e ▸ hg)) fun e => h.dir_notMem (e ▸ hg)) 0
  · by_cases hqi : q / 1024 = i
    · rw [access_absent (m := m) (by rw [hqi, h0])]
      show Option.map _ (walk (m₁.mem.fill f fun _ => 0) m.dir q) = none
      simp only [walk, hqi, hrowi, hdiv, Memory.fill_self]
      rw [if_neg fun hh => by omega]
      rfl
    · refine access_of_eq (hrow _ hqi) fun hpq => congrFun (hsame _ (hun _ (by omega) hpq) ?_) _
      exact (h.own _ (by omega) hpq).1

/-! ### Calls -/

/-- `map` puts in a table if the slot is empty, and then writes the entry. -/
theorem SelfMapped.wp_map {Q : Unit → Machine → Prop} (h : SelfMapped m) :
    wp (Mem.map page (4096 * frame) flags) Q E m =
      if m.mem m.dir (page / 1024) = 0 then
        wp frameAlloc (fun table m₁ => wp (do
            vwrite pdirPage (page / 1024) (table ||| flags)
            memsetPage (ptablesPage + page / 1024)) (fun _ m₂ =>
          wp (vwrite (ptablesPage + page / 1024) (page % 1024) (4096 * frame ||| flags)) Q E m₂)
            E m₁) E m
      else
        wp (vwrite (ptablesPage + page / 1024) (page % 1024) (4096 * frame ||| flags)) Q E m := by
  simp only [Mem.map, mapWith, wp_bind, wp_vread h.walk_pdir, wp_ite]

/-- What a careful call does: it changes its page, and no other, and the entry that it writes is
that of a slot that is present. -/
theorem Directory.call {c : Call} (h : Directory m free) (hc : c.Careful m) :
    wp c.exec (fun _ m' => (∃ free', Directory m' free') ∧ m'.dir = m.dir ∧
      m'.mem m'.dir (c.page / 1024) % 2 = 1 ∧
        ∀ q, q < 1023 * 1024 → access m' q = if q = c.page then c.access else access m q)
      (fun e _ => e = outOfFrames) m := by
  have hi : c.page / 1024 < 1023 := by have := hc.page; omega
  rw [c.exec_eq, c.access_eq, h.wp_map]
  by_cases h0 : m.mem m.dir (c.page / 1024) = 0
  case neg =>
    have hp : m.mem m.dir (c.page / 1024) % 2 = 1 := (h.slots _ hi).resolve_left h0
    rw [if_neg h0, h.wp_setEntry hi hp hc.flags]
    refine ⟨⟨free, h.setEntry hi hp⟩, rfl,
      ?_, fun q hq => h.access_setEntry hc.page hp hc.flags (hc.grants h0) hq⟩
    show m.mem.set _ _ _ m.dir _ % 2 = 1
    rw [Memory.set_ne (h.own _ hi hp).1.symm, hp]
  rw [if_pos h0]
  have hflag := hc.present h0
  cases free with
  | nil =>
    rw [wp_frameAlloc_zero h.chain]
  | cons f rest =>
  refine (h.frameAlloc (hc.table h0) (hc.resv h0)).mono ?_ fun _ _ he => he
  rintro a m₁ ⟨rfl, ht⟩
  refine (ht.directory.newTable ht.notMem ht.ne ht.unused hi
    (by rw [ht.entries, h0]) hc.flags hflag).mono ?_ fun _ _ he => he
  rintro - m₂ ⟨hd₂, hdir₂, hent, hacc⟩
  have hp₂ : m₂.mem m₂.dir (c.page / 1024) % 2 = 1 := by omega
  have hmod : m₂.mem m₂.dir (c.page / 1024) % 4096 = c.flags := by have := hc.flags; omega
  rw [hd₂.wp_setEntry hi hp₂ hc.flags]
  refine ⟨⟨rest, hd₂.setEntry hi hp₂⟩, hdir₂.trans ht.dir, ?_, fun q hq => ?_⟩
  · show m₂.mem.set _ _ _ m₂.dir _ % 2 = 1
    rw [Memory.set_ne (hd₂.own _ hi hp₂).1.symm, hp₂]
  · rw [hd₂.access_setEntry hc.page hp₂ hc.flags (fun _ => by rw [Grants, hmod]; exact ⟨id, id⟩) hq,
      hacc q hq, ht.accesses q hq]

end

/-! ### Runs -/

/-- The machine `m` is reached from `m₀` by calls that are careful. -/
inductive CarefulRun (m₀ : Machine) : List Call → Machine → Prop where
  | nil : CarefulRun m₀ [] m₀
  | snoc {calls : List Call} {c : Call} {m m' : Machine} (run : CarefulRun m₀ calls m)
      (careful : c.Careful m) (exec : c.exec m = .ok () m') : CarefulRun m₀ (calls ++ [c]) m'

theorem lastAccess_snoc (calls : List Call) (c : Call) (page : ℕ) (before : Option Access) :
    lastAccess (calls ++ [c]) page before = if page = c.page then c.access
      else lastAccess calls page before := by
  unfold lastAccess
  rw [List.reverse_append, List.reverse_singleton, List.singleton_append, List.find?_cons]
  by_cases h : c.page = page
  · rw [decide_eq_true h, if_pos h.symm]
  · rw [decide_eq_false h, if_neg fun e => h e.symm]

/-- What a run of careful calls keeps. -/
theorem CarefulRun.keeps {m₀ m : Machine} {free : List ℕ} {calls : List Call}
    (hr : CarefulRun m₀ calls m)
    (h : Directory m₀ free) :
    (∃ free', Directory m free') ∧
      ∀ page, page < 1023 * 1024 → access m page = lastAccess calls page (access m₀ page) := by
  induction hr with
  | nil => exact ⟨⟨free, h⟩, fun _ _ => rfl⟩
  | snoc run careful exec ih =>
    obtain ⟨⟨free', hd⟩, hacc⟩ := ih
    obtain ⟨hd', -, -, hpage⟩ := (hd.call careful).ok exec
    refine ⟨hd', fun page hp => ?_⟩
    rw [hpage page hp, lastAccess_snoc, hacc page hp]

/-- **Runs of `map` and `unmap`**: after careful calls every page is what the last call for it has
made of it, and what it was before if there was none; and the next careful call writes its entry
in a slot that is present, unless there is no frame left for a table. -/
theorem map_run_translates (m₀ : Machine) (free : List ℕ) (h : Directory m₀ free)
    (calls : List Call) (m : Machine) (hr : CarefulRun m₀ calls m) :
    (∀ page, page < 1023 * 1024 → access m page = lastAccess calls page (access m₀ page)) ∧
      ∀ c : Call, c.Careful m →
        wp c.exec (fun _ m' => m'.dir = m.dir ∧ m'.mem m'.dir (c.page / 1024) % 2 = 1)
        (fun e _ => e = outOfFrames) m := by
  obtain ⟨⟨free', hd⟩, hacc⟩ := hr.keeps h
  exact ⟨hacc, fun c hc => (hd.call hc).mono (fun _ _ hm => ⟨hm.2.1, hm.2.2.1⟩) fun _ _ => id⟩

/-- A directory in frame 1 with a table in frame 2 for the last slot but one, and two free frames.
-/
def newMachine : Machine where
  mem
    | 1, 1023 => 4096 + 3
    | 1, 1022 => 4096 * 2 + 3
    | 3, 0 => 4096 * 4
    | _, _ => 0
  dir := 1
  lastFreePage := 4096 * 3
  numPages := 2
  heapEnd := heapStart

theorem newMachine_slot {i : ℕ} (h : newMachine.mem 1 i % 2 = 1) : i = 1023 ∨ i = 1022 := by
  unfold newMachine at h
  dsimp only at h
  split at h <;> simp_all

theorem newMachine_empty {i : ℕ} (h1 : i ≠ 1023) (h2 : i ≠ 1022) : newMachine.mem 1 i = 0 := by
  unfold newMachine
  dsimp only
  split <;> simp_all

theorem newMachine_directory : Directory newMachine [3, 4] := by
  refine ⟨⟨rfl, rfl⟩, fun i hi => ?_, fun i j hi hj hpi hpj _ => ?_, fun i hi hp => ?_,
    ?_, by decide, by decide⟩
  · by_cases h : i = 1022
    · subst h
      exact .inr rfl
    · exact .inl (newMachine_empty (by omega) h)
  · have hi' := newMachine_slot hpi
    have hj' := newMachine_slot hpj
    omega
  · obtain rfl | rfl := newMachine_slot hp
    · omega
    · decide
  · exact ⟨rfl, by decide, rfl, by decide, rfl⟩

/-- A page is mapped and another one in the same slot, and the first one unmapped. -/
theorem map_run_translates_three :
    Directory newMachine [3, 4] ∧ ∃ m, CarefulRun newMachine [.map 5 9 7, .map 6 10 3, .unmap 5] m ∧
      access m 5 = none ∧
      access m 6 = some ⟨10, true, false⟩ := by
  have h₁ : (Call.map 5 9 7).exec newMachine = .ok () _ :=
    Outcome.eq_ok_of_returned (by decide +kernel)
  have hc₁ : (Call.map 5 9 7).Careful newMachine :=
    ⟨by decide, by decide, by decide +kernel, by decide +kernel, by decide +kernel,
      by decide +kernel⟩
  generalize hm₁ : ((Call.map 5 9 7).exec newMachine).state = m₁ at h₁
  have h₂ : (Call.map 6 10 3).exec m₁ = .ok () _ :=
    Outcome.eq_ok_of_returned (by rw [← hm₁]; decide +kernel)
  have hc₂ : (Call.map 6 10 3).Careful m₁ := by
    rw [← hm₁]
    exact ⟨by decide, by decide, by decide +kernel, by decide +kernel, by decide +kernel,
      by decide +kernel⟩
  generalize hm₂ : ((Call.map 6 10 3).exec m₁).state = m₂ at h₂
  have h₃ : (Call.unmap 5).exec m₂ = .ok () _ :=
    Outcome.eq_ok_of_returned (by rw [← hm₂, ← hm₁]; decide +kernel)
  have hc₃ : (Call.unmap 5).Careful m₂ := by
    rw [← hm₂, ← hm₁]
    exact ⟨by decide, by decide, by decide +kernel, by decide +kernel, by decide +kernel,
      by decide +kernel⟩
  have hrun : CarefulRun newMachine [.map 5 9 7, .map 6 10 3, .unmap 5] _ :=
    ((CarefulRun.nil.snoc hc₁ h₁).snoc hc₂ h₂).snoc hc₃ h₃
  obtain ⟨hacc, -⟩ := map_run_translates newMachine [3, 4] newMachine_directory _ _ hrun
  exact ⟨newMachine_directory, _, hrun, hacc 5 (by decide), hacc 6 (by decide)⟩

/-- A second page of a slot that is to be writable is not, as the first one was not. -/
theorem second_page_read_only :
    Directory newMachine [3, 4] ∧
      ∃ m, ([.map 5 9 1, .map 6 10 3] : List Call).forM Call.exec newMachine = .ok () m ∧
      access m 6 ≠ lastAccess [.map 5 9 1, .map 6 10 3] 6 (access newMachine 6) := by
  refine ⟨newMachine_directory, _, Outcome.eq_ok_of_returned (by decide +kernel), by decide +kernel⟩

end Cosiris.Mem
