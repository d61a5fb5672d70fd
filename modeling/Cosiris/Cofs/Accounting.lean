import Cosiris.Cofs.Calls

/-!
# The bitmap and the blocks of files

Over a run of calls, the bitmap marks the metadata and the blocks that the inodes on the
disk refer to, and every block refers to one place of one inode at most. This holds as
long as no file is truncated whose size is a whole number of blocks that reach the
indirect ones: `cofs_truncate` goes one block too far, takes the boot block for the
indirect block that is not there and frees it.
-/

namespace Cosiris.Cofs

open Function Prog

/-- A place of an inode on the disk holds the address of the block. -/
def RefersTo (d : Dev) (o : ℕ × Place) (b : ℕ) : Prop :=
  o.1 < d.superb.numInodes ∧ (d.inode o.1).type ≠ 0 ∧ b ≠ 0 ∧
    addrAt d.disk (d.inode o.1).addrs o.2 = b

/-- **The accounts of the bitmap.** -/
structure Accounted (d : Dev) : Prop where
  used_iff : ∀ b, b < d.superb.numBits →
      (d.used b = true ↔ b < d.superb.dataStart ∨ ∃! o, RefersTo d o b)
  once : ∀ o o' b, RefersTo d o b → RefersTo d o' b → o = o'
  data : ∀ o b, RefersTo d o b → d.superb.dataStart ≤ b ∧ b < d.superb.numBits

/-- Every block that was given to `block_free` was a block of data and in use. -/
def FreedOk (dataStart : ℕ) (freed : List (ℕ × Bool)) : Prop :=
  ∀ e ∈ freed, dataStart ≤ e.1 ∧ e.2 = true

instance (dataStart : ℕ) (freed : List (ℕ × Bool)) : Decidable (FreedOk dataStart freed) :=
  inferInstanceAs (Decidable (∀ e ∈ freed, _))

section

variable [Stack] {s s' : Fs} {c : Call}

omit [Stack] in
theorem Quiet.record_eq (h : Quiet s) (i : ℕ) : s.record i = s.dev.inode i := by
  by_cases hl : s.Loaded i
  · rw [Fs.record_of_loaded hl, h.clean i hl]
  · exact Fs.record_of_not_loaded hl

/-- Between two calls the references of the inodes are those on the disk. -/
theorem Mounted.refersTo_iff (h : Mounted s) (o : ℕ × Place) (b : ℕ) :
    RefersTo s.dev o b ↔ b ≠ 0 ∧ refAt s.dev s.table o = b := by
  obtain ⟨i, p⟩ := o
  have hrec := h.quiet.record_eq i
  unfold RefersTo refAt
  dsimp only
  by_cases ha : s.Allocated i
  · rw [Fs.table_of_allocated ha, hrec]
    refine ⟨fun hr => hr.2.2, fun hr => ⟨ha.1, ?_, hr⟩⟩
    rw [← hrec]
    exact ha.2
  · have ht : s.table i = fun _ => 0 := if_neg ha
    rw [ht, addrAt_zero]
    constructor
    · rintro ⟨hlt, hty, -⟩
      exact absurd ⟨hlt, by rwa [hrec]⟩ ha
    · rintro ⟨hb, rfl⟩
      exact absurd rfl hb

theorem Mounted.accounted (h : Mounted s) : Accounted s.dev := by
  have hs := h.inv.sound
  have honce : ∀ o o' b, RefersTo s.dev o b → RefersTo s.dev o' b → o = o' := by
    intro o o' b ho ho'
    rw [h.refersTo_iff] at ho ho'
    exact hs.allot.inj (by rw [ho.2]; exact ho.1) (ho.2.trans ho'.2.symm)
  refine ⟨fun b hb => ?_, honce, fun o b ho => ?_⟩
  · have huse := hs.allot.used_iff b
    simp only [hb, true_and, or_false] at huse
    rw [huse]
    refine or_congr_right ⟨?_, ?_⟩
    · rintro ⟨h0, o, ho⟩
      have hr := (h.refersTo_iff o b).mpr ⟨h0, ho⟩
      exact ⟨o, hr, fun o' ho' => honce o' o b ho' hr⟩
    · rintro ⟨o, ho, -⟩
      have := (h.refersTo_iff o b).mp ho
      exact ⟨this.1, o, this.2⟩
  · obtain ⟨h0, rfl⟩ := (h.refersTo_iff o b).mp ho
    exact ⟨hs.dataStart_le h0, hs.lt_numBits h0⟩

/-- All that a call frees was in use. -/
theorem Call.Effect.logged (he : c.Effect s s') :
    Logged s.dev s'.dev ∧ s'.dev.superb = s.dev.superb := by
  have hrest : ∀ {T : ℕ → Prop}, Rest T s s' → Logged s.dev s'.dev ∧ s'.dev.superb = s.dev.superb :=
    fun hr => ⟨hr.logged, hr.superb⟩
  have hins : ∀ {p type mask : ℕ} {name : CStr} {l : ℕ → List Dirent},
    (∃ r, Inserted p name type mask l s r s') →
      Logged s.dev s'.dev ∧ s'.dev.superb = s.dev.superb := by
    rintro p type mask name l ⟨r, ⟨-, he⟩ | ⟨i, n, data, -, ha, -⟩⟩
    · exact hrest he.back.rest
    · exact hrest ha.rest
  cases c with
  | finddir p name =>
    rcases he with rfl | ⟨i, nm, -, -, -, ht⟩
    · exact hrest (Rest.refl (fun _ => False) _)
    · exact hrest ht.rest
  | creat p name mode => exact hins he
  | mkdir p name mode => exact hins he
  | mknod p name mode dev => exact hins he
  | link p i name => exact he.elim (fun ha => hrest ha.rest) fun ⟨j, hr⟩ => hrest hr.rest
  | unlink p name =>
    rcases he with rfl | ⟨i, hu⟩
    · exact hrest (Rest.refl (fun _ => False) _)
    · exact hrest hu.rest
  | put i => exact hrest he.2.1
  | dup i => exact hrest he.rest
  | write i offset bytes => exact hrest he.rest
  | truncate i length => exact hrest he.rest

omit [Stack] in
theorem FreedOk.of_logged {d d' : Dev} (h : FreedOk d.superb.dataStart d.freed) (hl : Logged d d') :
    FreedOk d.superb.dataStart d'.freed := by
  obtain ⟨l, e, hok⟩ := hl
  rw [e]
  exact fun x hx => (List.mem_append.mp hx).elim (hok x) (h x)

/-- The call is not `cofs_link`, a write and a truncation are as their callers promise, and no
file is truncated or released of a size with which `cofs_truncate` goes wrong. The root is not
released. -/
def Call.Careful (s : Fs) (c : Call) : Prop :=
  (∀ p i name, c ≠ .link p i name) ∧ c.Proper s ∧ ∀ i, c.Drops s i →
    i ≠ 1 ∧ TruncateOk (s.core i).size

theorem Call.Careful.freed (h : Mounted s) (hg : c.Given s) (hc : c.Careful s)
    (hf : FreedOk s.dev.superb.dataStart s.dev.freed) :
    FreedOk s.dev.superb.dataStart (c.exec s).state.dev.freed := by
  have hspec := c.exec_spec h hg (fun hd => (hc.2.2 1 hd).1 rfl) hc.2.1
  cases hx : c.exec s with
  | ok a s' => exact hf.of_logged (hspec.ok hx).logged.1
  | halt e s' =>
    refine hf.of_logged ((hspec.halted hx hc.1).resolve_right ?_)
    rintro ⟨i, hd, hsize⟩
    exact hsize (hc.2.2 i hd).2

theorem Call.Careful.step (h : Mounted s ∧ FreedOk s.dev.superb.dataStart s.dev.freed)
    (hs : Step Call.Careful s s') :
    Mounted s' ∧ FreedOk s'.dev.superb.dataStart s'.dev.freed := by
  obtain ⟨c, hg, hc, hx⟩ := hs
  have he := (c.exec_spec h.1 hg (fun hd => (hc.2.2 1 hd).1 rfl) hc.2.1).ok hx
  refine ⟨he.mounted h.1 hg, ?_⟩
  rw [he.logged.2]
  exact h.2.of_logged he.logged.1

/-- **The accounts hold after every call of a run**, and whatever a further call frees was in use.
-/
theorem blocks_accounted {s₀ s : Fs} (h₀ : Mounted s₀) (hf : s₀.dev.freed = [])
    (hrun : Reach (Step Call.Careful) s₀ s) :
    Accounted s.dev ∧ FreedOk s.dev.superb.dataStart s.dev.freed ∧
      ∀ c : Call, c.Given s → c.Careful s →
      FreedOk s.dev.superb.dataStart (c.exec s).state.dev.freed := by
  have hall : Mounted s ∧ FreedOk s.dev.superb.dataStart s.dev.freed := by
    refine Reach.invariant (I := fun s => Mounted s ∧ FreedOk s.dev.superb.dataStart s.dev.freed)
      (fun s t h hs => Call.Careful.step h hs) ⟨h₀, ?_⟩ hrun
    rw [hf]
    intro e he
    cases he
  exact ⟨hall.1.accounted, hall.2, fun c hg hc => hc.freed hall.1 hg hall.2⟩

end

/-! ### A file of six blocks -/

attribute [local instance] Stack.zero

/-- The partition after `creat("a")` in the root. -/
def oneFile : Fs := ((Call.creat 1 nameA 0).exec (tiny (emptyNode 0x4000))).state

theorem step_oneFile : Step Call.Careful (tiny (emptyNode 0x4000)) oneFile := by
  have hl : lookup (slots ((tiny (emptyNode 0x4000)).data 1)) nameA = 0 := by decide +kernel
  refine Step.of_returned (List.forall_mem_singleton.mpr tiny_mounted.root)
    ⟨by simp, trivial, fun i hd => ?_⟩
    (by decide +kernel)
  exact absurd (hd.1.trans hl) hd.2.1

/-- A file is created. -/
theorem blocks_accounted_creat : Accounted oneFile.dev ∧ oneFile.refs 2 = 1 :=
  ⟨(blocks_accounted tiny_mounted rfl (.single step_oneFile)).1, by decide +kernel⟩

/-- The partition after 3072 bytes have been written to the file. -/
def sixBlocks : Fs := ((Call.write 2 0 (List.replicate 3072 1)).exec oneFile).state

theorem step_sixBlocks : Step Call.Careful oneFile sixBlocks := by
  have hr : oneFile.refs 2 ≠ 0 := by decide +kernel
  have ht : (oneFile.node 2).pack.type &&& 0x4000 = 0 := by decide +kernel
  have hret : ((Call.write 2 0 (List.replicate 3072 1)).exec oneFile).returned = true := by
    decide +kernel
  have hmax : 0 + (List.replicate 3072 (1 : UInt8)).length ≤ maxFileSize := by
    rw [List.length_replicate]
    decide
  unfold sixBlocks
  generalize List.replicate 3072 (1 : UInt8) = bytes at hret hmax
  generalize oneFile = s at hr ht hret
  exact Step.of_returned (List.forall_mem_singleton.mpr hr)
    ⟨by simp, ⟨Nat.zero_le _, hmax, fun hd => absurd ht hd⟩, fun i hd => hd.elim⟩ hret

/-- **`cofs_truncate` frees the boot block** when it is given a file of six blocks. -/
theorem truncate_frees_boot :
    Mounted (tiny (emptyNode 0x4000)) ∧ (tiny (emptyNode 0x4000)).dev.freed = [] ∧
    Reach (Step Call.Careful) (tiny (emptyNode 0x4000)) sixBlocks ∧ sixBlocks.refs 2 ≠ 0 ∧
    3072 ≤ (sixBlocks.node 2).size ∧ 3072 % 512 = 0 ∧
    (0, true) ∈ ((Call.truncate 2 3072).exec sixBlocks).state.dev.freed :=
  ⟨tiny_mounted, rfl,
    .tail (.single step_oneFile) step_sixBlocks, by decide +kernel, by decide +kernel, rfl,
    by decide +kernel⟩

end Cosiris.Cofs
