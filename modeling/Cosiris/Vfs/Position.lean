import Cosiris.Cofs.Contents

/-!
# The position of an open file

`sys_read`, `sys_write` and `sys_lseek` of `sysfile.c` on a descriptor of a regular file. A file
of reference is a list of bytes and a position; an offset is a signed number of 32 bits, since a
seek may go back.

`sys_lseek` with `SEEK_END` sets the position to the offset itself, and checks nothing. In every
sequence of calls without such a seek, in which the sums of the position and of what is read stay
below 2³², and what is written fits the file and the disk, the calls do what they do on the file
of reference. -/

namespace Cosiris.Vfs

open Cofs Prog

/-- `SEEK_SET`, `SEEK_CUR` and `SEEK_END`. -/
inductive Whence where
  | seekSet
  | seekCur
  | seekEnd
  deriving DecidableEq

/-- `struct file`, on the file system. -/
structure File where
  fs : Fs
  offs : UInt32

/-- What a call returns: a number, and the bytes it has put into the buffer. -/
structure Result where
  value : UInt32
  bytes : List UInt8
  deriving DecidableEq

/-- `FS_FILE`. -/
def fsFile : ℕ := 0x8000

/-- `FS_CHARDEVICE`. -/
def fsCharDevice : ℕ := 0x2000

/-- `FS_PIPE`. -/
def fsPipe : ℕ := 0x1000

/-- A program on the file system. -/
def onFs {α : Type} (m : Prog Halt Fs α) : Prog Halt File α :=
  zoom File.fs (fun s f => { f with fs := s }) m

/-- `sys_read`, for the node `i`. -/
def sysRead (i : ℕ) (count : UInt32) : Prog Halt File Result := do
  let f ← read
  let node := f.fs.node i
  if node.size ≤ f.offs.toNat ∧ node.type ≠ fsCharDevice ∧ node.type ≠ fsPipe then return ⟨0, []⟩
  else
    let r ← onFs (onNode i (cofsRead f.offs.toNat count.toNat))
    modify fun f => { f with offs := f.offs + .ofNat r.1 }
    return ⟨.ofNat r.1, r.2⟩

/-- `sys_write`, for the node `i`. -/
def sysWrite (i : ℕ) (buf : List UInt8) : Prog Halt File Result := do
  let f ← read
  let n ← onFs (onNode i (cofsWrite f.offs.toNat buf))
  modify fun f => { f with offs := f.offs + .ofNat n }
  return ⟨.ofNat n, []⟩

/-- `sys_lseek`, for the node `i`. -/
def sysLseek (i : ℕ) (offset : UInt32) (whence : Whence) : Prog Halt File Result := do
  let f ← read
  let size := (f.fs.node i).size
  match whence with
  | .seekSet =>
    if size < offset.toNat then return ⟨-1, []⟩
    modify fun f => { f with offs := offset }
  | .seekCur =>
    if size < (offset + f.offs).toNat then return ⟨-1, []⟩
    modify fun f => { f with offs := f.offs + offset }
  | .seekEnd => modify fun f => { f with offs := offset }
  let f ← read
  return ⟨f.offs, []⟩

/-! ### The file of reference -/

/-- Bytes and a position. -/
structure Ref where
  bytes : List UInt8
  pos : ℕ

/-- Read as much as there is. -/
def Ref.read (r : Ref) (n : ℕ) : Result × Ref :=
  let bytes := (r.bytes.drop r.pos).take n
  (⟨.ofNat bytes.length, bytes⟩, { r with pos := r.pos + bytes.length })

/-- Write the whole buffer at the position. -/
def Ref.write (r : Ref) (buf : List UInt8) : Result × Ref :=
  (⟨.ofNat buf.length, []⟩, ⟨overlay r.bytes r.pos buf, r.pos + buf.length⟩)

/-- What an offset counts from. -/
def Ref.base (r : Ref) : Whence → ℕ
  | .seekSet => 0
  | .seekCur => r.pos
  | .seekEnd => r.bytes.length

/-- Set the position, if it stays in the file. -/
def Ref.seek (r : Ref) (offset : ℤ) (whence : Whence) : Result × Ref :=
  let target := r.base whence + offset
  if 0 ≤ target ∧
    target ≤ r.bytes.length then (⟨.ofNat target.toNat, []⟩, { r with pos := target.toNat })
  else (⟨-1, []⟩, r)

/-! ### Sequences of calls -/

/-- A call on the descriptor. -/
inductive Call where
  | read (count : UInt32)
  | write (buf : List UInt8)
  | lseek (offset : UInt32) (whence : Whence)

/-- A run of the call. -/
def Call.exec (i : ℕ) : Call → Prog Halt File Result
  | read count => sysRead i count
  | write buf => sysWrite i buf
  | lseek offset whence => sysLseek i offset whence

/-- The call on the file of reference; the offset is a signed number. -/
def Call.ref (r : Ref) : Call → Result × Ref
  | read count => r.read count.toNat
  | write buf => r.write buf
  | lseek offset whence => r.seek offset.toBitVec.toInt whence

/-- The calls, one after the other. -/
def run (i : ℕ) : List Call → Prog Halt File (List Result)
  | [] => pure []
  | c :: cs => do
    let r ← c.exec i
    let rs ← run i cs
    return r :: rs

/-- The calls on the file of reference. -/
def Ref.run (r : Ref) : List Call → List Result × Ref
  | [] => ([], r)
  | c :: cs => (.cons (c.ref r).1 ((c.ref r).2.run cs).1, ((c.ref r).2.run cs).2)

/-- The file that the descriptor stands for. -/
def File.ref (f : File) (i : ℕ) : Ref :=
  ⟨contents f.fs.dev.disk (f.fs.node i).addrs (f.fs.node i).size, f.offs.toNat⟩

/-- The descriptor is one of a regular file in a consistent file system, with its position in the
file. -/
structure File.Regular (f : File) (i : ℕ) : Prop where
  consistent : Consistent f.fs
  loaded : f.fs.Loaded i
  type : (f.fs.node i).type = fsFile
  offs : f.offs.toNat ≤ (f.fs.node i).size

/-- A read does not come round; a write is within the limit of the file and finds free blocks; and
a seek from the end is to the start of an empty file. -/
def Call.Plain (f : File) (i : ℕ) : Call → Prop
  | read count => (f.fs.node i).size ≤ f.offs.toNat ∨ f.offs.toNat + count.toNat < 2 ^ 32
  | write buf =>
      f.offs.toNat + buf.length ≤ maxFileSize ∧
        Room f.fs.dev f.fs.table i (Spans f.offs.toNat buf.length)
  | lseek offset .seekEnd => (f.fs.node i).size = 0 ∧ offset = 0
  | lseek _ _ => True

/-- Each call is plain where it is made. -/
def Plain (i : ℕ) : File → List Call → Prop
  | _, [] => True
  | f, c :: cs => c.Plain f i ∧ ∀ r f', c.exec i f = .ok r f' → Plain i f' cs

section

variable {f : File} {i : ℕ}

/-- What a call does is what it does on the file of reference. -/
def Call.Refines (f : File) (i : ℕ) (c : Call) (r : Result) (f' : File) : Prop :=
  r = (c.ref (f.ref i)).1 ∧ f'.ref i = (c.ref (f.ref i)).2 ∧ f'.Regular i

theorem File.Regular.size_le (h : f.Regular i) : (f.fs.node i).size ≤ 16518 * 512 := by
  obtain ⟨-, hfit, hlt⟩ := h.consistent.node i h.loaded
  have hfill := h.consistent.filled i (Fs.allocated_of_loaded h.loaded hfit hlt)
  rw [Fs.record_of_loaded h.loaded, hfit.pack_size] at hfill
  exact hfill.1

theorem File.Regular.length (f : File) (i : ℕ) : (f.ref i).bytes.length = (f.fs.node i).size :=
    length_contents ..

theorem toNat_add_ofNat {x : UInt32} {n : ℕ} (h : x.toNat + n < 2 ^ 32) :
    (x + .ofNat n).toNat = x.toNat + n := by
  rw [UInt32.toNat_add, UInt32.toNat_ofNat', Nat.add_mod_mod, Nat.mod_eq_of_lt h]

theorem File.Regular.read {count : UInt32} (h : f.Regular i) (hp : (Call.read count).Plain f i) :
    wp (sysRead i count) ((Call.read count).Refines f i) (fun _ _ => False) f := by
  have hsize := h.size_le
  have hoffs := h.offs
  have hchar : (f.fs.node i).type ≠ fsCharDevice ∧ (f.fs.node i).type ≠ fsPipe := by
    rw [h.type]
    exact ⟨by decide, by decide⟩
  have hlen : (((f.ref i).bytes.drop (f.ref i).pos).take count.toNat).length =
      min count.toNat ((f.fs.node i).size - f.offs.toNat) := by
    rw [List.length_take, List.length_drop, File.Regular.length]
    rfl
  rw [sysRead, wp_bind, wp_read]
  unfold Call.Refines Call.ref Ref.read
  by_cases hend : (f.fs.node i).size ≤ f.offs.toNat
  · have hnil : ((f.ref i).bytes.drop (f.ref i).pos).take count.toNat = [] := by
      rw [← List.length_eq_zero_iff, hlen]
      omega
    rw [if_pos ⟨hend, hchar⟩]
    dsimp only
    rw [hnil]
    exact ⟨rfl, rfl, h⟩
  · rw [if_neg fun hc => hend hc.1, wp_bind, onFs, wp_zoom]
    have hread := h.consistent.read_eq h.loaded (hp.resolve_left hend)
    rw [wp_of_eq hread]
    simp only [wp_bind, wp_modify, wp_pure]
    rw [hlen]
    have hadd :=
      toNat_add_ofNat (x := f.offs) (n := min count.toNat ((f.fs.node i).size - f.offs.toNat))
        (by omega)
    refine ⟨rfl, ?_, h.consistent, h.loaded, h.type, ?_⟩
    · show Ref.mk _ (_ + _ : UInt32).toNat = _
      rw [hadd]
      rfl
    · rw [hadd]
      show _ ≤ (f.fs.node i).size
      omega

theorem File.Regular.write {buf : List UInt8} (h : f.Regular i) (hp : (Call.write buf).Plain f i) :
    wp (sysWrite i buf) ((Call.write buf).Refines f i) (fun _ _ => False) f := by
  obtain ⟨hmax, hroom⟩ := hp
  have hadd :=
    toNat_add_ofNat (x := f.offs) (n := buf.length) (by unfold maxFileSize at hmax; omega)
  rw [sysWrite, wp_bind, wp_read, wp_bind, onFs, wp_zoom]
  refine (h.consistent.write_spec h.loaded h.offs hmax hroom).mono (fun n s' hw => ?_) fun _ _ => id
  obtain ⟨rfl, hsize, htype, hl, hcont, -, hc⟩ := hw
  refine ⟨rfl, ?_, hc, hl, htype.trans h.type, ?_⟩
  · show Ref.mk _ (_ + _ : UInt32).toNat = Ref.mk _ _
    rw [hadd]
    dsimp only
    rw [hcont]
    rfl
  · show (_ + _ : UInt32).toNat ≤ (s'.node i).size
    rw [hadd, hsize]
    omega

/-- An offset as a signed number. -/
theorem toInt_offset (x : UInt32) :
    x.toBitVec.toInt = if x.toNat < 2 ^ 31 then (x.toNat : ℤ) else x.toNat - 2 ^ 32 := by
  rw [BitVec.toInt_eq_toNat_cond]
  have hx : x.toBitVec.toNat = x.toNat := rfl
  rw [hx]
  split_ifs <;> omega

/-- A seek to where the reference goes. -/
theorem File.Regular.seek {x : UInt32} {offset : ℤ} {whence : Whence} (h : f.Regular i)
    (hx : x.toNat = (f.ref i).base whence + offset) (hle : x.toNat ≤ (f.fs.node i).size) :
    ⟨x, []⟩ = ((f.ref i).seek offset whence).1 ∧
      ({ f with offs := x } : File).ref i = ((f.ref i).seek offset whence).2 ∧
      ({ f with offs := x } : File).Regular i := by
  have hlen := File.Regular.length f i
  unfold Ref.seek
  dsimp only
  rw [← hx, if_pos ⟨by omega, by rw [hlen]; omega⟩, Int.toNat_natCast, UInt32.ofNat_toNat]
  exact ⟨rfl, rfl, h.consistent, h.loaded, h.type, hle⟩

/-- A seek that the reference refuses. -/
theorem File.Regular.refuse {offset : ℤ} {whence : Whence} (h : f.Regular i)
    (ht : ¬(0 ≤ (f.ref i).base whence + offset ∧
      (f.ref i).base whence + offset ≤ (f.fs.node i).size)) :
    ⟨-1, []⟩ = ((f.ref i).seek offset whence).1 ∧ f.ref i = ((f.ref i).seek offset whence).2 ∧
      f.Regular i := by
  unfold Ref.seek
  dsimp only
  rw [File.Regular.length, if_neg ht]
  exact ⟨rfl, rfl, h⟩

theorem File.Regular.lseek {offset : UInt32} {whence : Whence} (h : f.Regular i)
    (hp : (Call.lseek offset whence).Plain f i) :
    wp (sysLseek i offset whence) ((Call.lseek offset whence).Refines f i)
      (fun _ _ => False) f := by
  have hsize := h.size_le
  have hoffs := h.offs
  have hint := toInt_offset offset
  have hlt := offset.toNat_lt
  unfold Call.Refines Call.ref
  cases whence with
  | seekSet =>
    simp only [sysLseek, wp_bind, wp_read, wp_ite, wp_modify, wp_pure]
    split_ifs with hc
    · refine h.refuse ?_
      rw [hint]
      show ¬(0 ≤ ((0 : ℕ) : ℤ) + _ ∧ ((0 : ℕ) : ℤ) + _ ≤ _)
      split_ifs <;> omega
    · refine h.seek ?_ (by omega)
      rw [hint]
      show _ = ((0 : ℕ) : ℤ) + _
      split_ifs <;> omega
  | seekCur =>
    have hadd := UInt32.toNat_add offset f.offs
    have hbase : (f.ref i).base .seekCur = f.offs.toNat := rfl
    simp only [sysLseek, wp_bind, wp_read, wp_ite, wp_modify, wp_pure]
    split_ifs with hc
    · refine h.refuse ?_
      rw [hint, hbase]
      split_ifs <;> omega
    · rw [UInt32.add_comm f.offs offset]
      refine h.seek ?_ (by omega)
      rw [hint, hbase]
      split_ifs <;> omega
  | seekEnd =>
    obtain ⟨h0, rfl⟩ := hp
    simp only [sysLseek, wp_bind, wp_read, wp_modify, wp_pure]
    refine h.seek ?_ (Nat.zero_le _)
    rw [hint]
    show _ = ((f.ref i).bytes.length : ℤ) + _
    rw [File.Regular.length, h0]
    rfl

theorem Call.exec_refines {c : Call} (h : f.Regular i) (hp : c.Plain f i) :
    wp (c.exec i) (c.Refines f i) (fun _ _ => False) f := by
  cases c with
  | read count => exact h.read hp
  | write buf => exact h.write hp
  | lseek offset whence => exact h.lseek hp

/-- **File positions**: every sequence of plain calls on a descriptor of a regular file returns
what it returns on the file of reference, and leaves the bytes and the position that it leaves
there. -/
theorem position_refines (h : f.Regular i) (cs : List Call) (hp : Plain i f cs) :
    ∃ f', run i cs f = .ok ((f.ref i).run cs).1 f' ∧ f'.ref i = ((f.ref i).run cs).2 ∧
      f'.Regular i := by
  induction cs generalizing f with
  | nil => exact ⟨f, rfl, rfl, h⟩
  | cons c cs ih =>
    obtain ⟨hc, hrest⟩ := hp
    obtain ⟨r, f₁, hexec, hr, href, hreg⟩ := (Call.exec_refines h hc).returns
    obtain ⟨f₂, hrun, href₂, hreg₂⟩ := ih hreg (hrest r f₁ hexec)
    rw [href] at hrun href₂
    refine ⟨f₂, ?_, href₂, hreg₂⟩
    have hwp : wp (run i (c :: cs)) (fun rs f' => rs = ((f.ref i).run (c :: cs)).1 ∧ f' = f₂)
      (fun _ _ => False) f := by
      rw [run, wp_bind, wp_of_eq hexec, wp_bind, wp_of_eq hrun, hr]
      exact ⟨rfl, rfl⟩
    obtain ⟨rs, f', he, rfl, rfl⟩ := hwp.returns
    exact he

end

/-- An empty regular file, just opened. -/
def emptyFile : File := ⟨tiny (emptyNode fsFile), 0⟩

theorem emptyFile_regular : emptyFile.Regular 1 where
  consistent := tiny_consistent (by decide) (by decide)
  loaded := (tiny_loaded_iff (by decide) 1).mpr rfl
  type := rfl
  offs := Nat.zero_le _

theorem emptyFile_plain : (Call.write [65]).Plain emptyFile 1 := by
  refine ⟨?_, tiny_room⟩
  show 0 + 1 ≤ maxFileSize
  unfold maxFileSize
  omega

/-- One byte is written; the position is set back, and the byte is read. -/
theorem position_refines_byte :
    ∃ f', run 1 [.write [65], .lseek (-1) .seekCur, .read 10] emptyFile =
    .ok [⟨1, []⟩, ⟨0, []⟩, ⟨1, [65]⟩] f' := by
  have hplain : Plain 1 emptyFile [.write [65], .lseek (-1) .seekCur, .read 10] := by
    refine ⟨emptyFile_plain,
      fun r₁ f₁ h₁ => ⟨trivial, fun r₂ f₂ h₂ => ⟨.inr ?_, fun _ _ _ => trivial⟩⟩⟩
    obtain ⟨-, href₁, hreg₁⟩ := (Call.exec_refines emptyFile_regular emptyFile_plain).ok h₁
    obtain ⟨-, -, hreg₂⟩ := (Call.exec_refines (c := .lseek (-1) .seekCur) hreg₁ trivial).ok h₂
    have hoffs := hreg₂.offs
    have hsize := hreg₂.size_le
    show f₂.offs.toNat + 10 < 2 ^ 32
    omega
  obtain ⟨f', hrun, -⟩ := position_refines emptyFile_regular _ hplain
  exact ⟨f', hrun⟩

/-- One byte is written, and a seek to the end of the file goes to its start. -/
theorem seek_end_to_start : ¬∃ f', run 1 [.write [65], .lseek 0 .seekEnd] emptyFile =
    .ok ((emptyFile.ref 1).run [.write [65], .lseek 0 .seekEnd]).1 f' := by
  rintro ⟨f', hrun⟩
  obtain ⟨r, f₁, hexec, -⟩ := (Call.exec_refines emptyFile_regular emptyFile_plain).returns
  have hwp : wp (run 1 [.write [65], .lseek 0 .seekEnd]) (fun rs _ => rs = [r, ⟨0, []⟩])
    (fun _ _ => False) emptyFile := by
    rw [run, wp_bind, wp_of_eq hexec]
    rfl
  have hlast : ((emptyFile.ref 1).run [.write [65], .lseek 0 .seekEnd]).1.getLast? =
    some ⟨0, []⟩ := by
    rw [hwp.ok hrun]
    rfl
  exact absurd hlast (by decide)

end Cosiris.Vfs
