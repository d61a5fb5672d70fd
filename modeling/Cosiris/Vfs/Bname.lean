import Cosiris.Lib.Prog
import Cosiris.Vfs.Canonize
import Mathlib.Logic.Function.Basic
import Mathlib.Data.List.GetD
import Mathlib.Data.List.Range

/-!
# Splitting a path

`bname` splits a path behind its last `'/'`, into arrays of `MAX_PATH_LEN` characters. It lets a
directory, with the `'/'`, and a name have as many characters as an array, and writes a NUL behind
them.
-/

namespace Cosiris.Vfs

open Prog

/-! ### The program -/

/-- `MAX_PATH_LEN`. -/
def maxPathLen : ℕ := 512

/-- An array, and the indices that were written. -/
structure Buf where
  data : ℕ → UInt8
  written : List ℕ

/-- A write. -/
def Buf.put (b : Buf) (i : ℕ) (c : UInt8) : Buf := ⟨Function.update b.data i c, b.written ++ [i]⟩

/-- `strncpy`, to an index of the array, for a number of characters. -/
def strncpy : List UInt8 → ℕ → ℕ → Buf → Buf
  | _, _, 0, b => b
  | [], i, n + 1, b => strncpy [] (i + 1) n (b.put i 0)
  | c :: src, i, n + 1, b => strncpy src (i + 1) n (b.put i c)

/-- The arrays `dirname` and `basename`. -/
structure Arrays where
  dirname : Buf
  basename : Buf

/-- `for (p = path + len; p > path; p--) if (*p == '/') break`. -/
def lastSlash (path : List UInt8) : ℕ → ℕ
  | 0 => 0
  | p + 1 => if path.getD (p + 1) 0 = slash then p + 1 else lastSlash path p

/-- What is written to `dirname`. -/
def putDirname (path : List UInt8) (pos : ℕ) (b : Buf) : Buf :=
  let b := (strncpy path 0 pos b).put pos 0
  if pos > 1 ∧ b.data (pos - 1) = slash then b.put (pos - 1) 0 else b

/-- `bname`. It halts at an assertion that fails. -/
def bname (path : List UInt8) : Prog String Arrays Unit := do
  let len := path.length
  let p := lastSlash path len
  let pos := if path.getD p 0 = slash then p + 1 else p
  if pos ≤ maxPathLen then
    modify fun a => { a with dirname := putDirname path pos a.dirname }
    if len - pos ≤ maxPathLen then
      modify fun a => { a with
        basename := (strncpy (path.drop pos) 0 (len - pos) a.basename).put (len - pos) 0 }
    else halt "len - pos <= MAX_PATH_LEN"
  else halt "pos <= MAX_PATH_LEN"

/-! ### What it is for -/

/-- The array holds a string. -/
structure Buf.Holds (b : Buf) (s : List UInt8) : Prop where
  chars : ∀ i (h : i < s.length), b.data i = s[i]
  last : b.data s.length = 0
  zero : 0 ∉ s

/-- A directory and a name, joined with a `'/'`, or with none behind the root. -/
def join (dir name : List UInt8) : List UInt8 :=
  if dir = [slash] then dir ++ name else dir ++ slash :: name

/-- Nothing is written out of the arrays, and they hold a directory and a name without `'/'` that
give the path. -/
def Arrays.Splits (a : Arrays) (path : List UInt8) : Prop :=
  (∀ i ∈ a.dirname.written, i < maxPathLen) ∧ (∀ i ∈ a.basename.written, i < maxPathLen) ∧
    ∃ dir name, a.dirname.Holds dir ∧ a.basename.Holds name ∧ slash ∉ name ∧ join dir name = path

/-- `bname` stops at an assertion, or splits the path. -/
def SplitRight (path : List UInt8) : Prop :=
  ∀ d b : ℕ → UInt8, wp (bname path) (fun _ a => a.Splits path) (fun _ _ => True) ⟨⟨d, []⟩, ⟨b, []⟩⟩

/-! ### Strings in arrays -/

section

variable {b : Buf} {s src dir name path : List UInt8} {i j n : ℕ}

theorem strncpy_written (src : List UInt8) (i n : ℕ) (b : Buf) :
    (strncpy src i n b).written = b.written ++ List.range' i n := by
  induction n generalizing src i b with
  | zero =>
    cases src <;> simp [strncpy]
  | succ n ih =>
    cases src <;> simp [strncpy, ih, Buf.put, List.range'_succ]

theorem strncpy_of_lt (h : j < i) : (strncpy src i n b).data j = b.data j := by
  induction n generalizing src i b with
  | zero => cases src <;> rfl
  | succ n ih =>
    have hput (c : UInt8) : (b.put i c).data j = b.data j := Function.update_of_ne h.ne _ _
    cases src with
    | nil => exact (ih (Nat.lt_succ_of_lt h)).trans (hput 0)
    | cons c src => exact (ih (Nat.lt_succ_of_lt h)).trans (hput c)

/-- The characters that `strncpy` copies. -/
theorem strncpy_data (h : j < n) : (strncpy src i n b).data (i + j) = src.getD j 0 := by
  induction n generalizing src i j b with
  | zero => exact absurd h (Nat.not_lt_zero j)
  | succ n ih =>
    have hfirst (src : List UInt8) (c : UInt8) : (strncpy src (i + 1) n (b.put i c)).data i = c :=
      (strncpy_of_lt (Nat.lt_succ_self i)).trans (Function.update_self ..)
    cases j with
    | zero => cases src with
      | nil => exact hfirst [] 0
      | cons c src => exact hfirst src c
    | succ j =>
      have hj : i + (j + 1) = i + 1 + j := by omega
      rw [hj]
      cases src with
      | nil => exact ih (Nat.lt_of_succ_lt_succ h)
      | cons c src => exact ih (Nat.lt_of_succ_lt_succ h)

/-- A string that is copied with its length, and a NUL. -/
theorem holds_strncpy (hz : 0 ∉ s) (t : List UInt8) (b : Buf) :
    ((strncpy (s ++ t) 0 s.length b).put s.length 0).Holds s := by
  refine ⟨fun i hi => ?_, Function.update_self .., hz⟩
  have hdata := @strncpy_data b (s ++ t) 0 i s.length hi
  rw [Nat.zero_add] at hdata
  have hget : (s ++ t).getD i 0 = s[i] := by
    simp [List.getD_eq_getElem?_getD, List.getElem?_append_left hi, hi]
  exact (Function.update_of_ne hi.ne _ _).trans (hdata.trans hget)

theorem Buf.Holds.length_le {s' : List UInt8} (h : b.Holds s) (h' : b.Holds s') :
    s'.length ≤ s.length := by
  by_contra hlt
  rw [not_le] at hlt
  have hzero : s'[s.length] = 0 := (h'.chars _ hlt).symm.trans h.last
  exact h'.zero (hzero ▸ List.getElem_mem hlt)

/-- An array holds one string. -/
theorem Buf.Holds.unique {s' : List UInt8} (h : b.Holds s) (h' : b.Holds s') : s = s' := by
  apply List.ext_getElem (le_antisymm (h'.length_le h) (h.length_le h'))
  intro i hi hi'
  exact (h.chars i hi).symm.trans (h'.chars i hi')

/-! ### The last `'/'` -/

/-- The loop stops at the last `'/'`. -/
theorem lastSlash_eq (hname : slash ∉ name) {p : ℕ} (hp : dir.length ≤ p) :
    lastSlash (dir ++ slash :: name) p = dir.length := by
  induction p with
  | zero => exact (Nat.le_zero.mp hp).symm
  | succ p ih =>
    unfold lastSlash
    by_cases heq : dir.length = p + 1
    · have hslash : (dir ++ slash :: name).getD (p + 1) 0 = slash := by
        rw [← heq]
        simp [List.getD_eq_getElem?_getD]
      rw [if_pos hslash, heq]
    · have hother : (dir ++ slash :: name).getD (p + 1) 0 ≠ slash := by
        obtain ⟨k, rfl⟩ := Nat.exists_eq_add_of_le (show dir.length ≤ p by omega)
        have hget : (dir ++ slash :: name).getD (dir.length + k + 1) 0 = name.getD k 0 := by
          rw [Nat.add_assoc, List.getD_eq_getElem?_getD,
            List.getElem?_append_right (Nat.le_add_right ..)]
          simp [List.getD_eq_getElem?_getD]
        rw [hget]
        by_cases hk : k < name.length
        · rw [List.getD_eq_getElem _ _ hk]
          exact fun h => hname (h ▸ List.getElem_mem hk)
        · rw [List.getD_eq_default _ _ (by omega)]
          decide
      rw [if_neg hother]
      exact ih (by omega)

/-- The characters up to the last `'/'`, and the `'/'`. -/
theorem strncpy_dir (dir name : List UInt8) (b : Buf) (hi : i ≤ dir.length) :
    ((strncpy (dir ++ slash :: name) 0 (dir.length + 1) b).put (dir.length + 1) 0).data i =
      (dir ++ [slash]).getD i 0 := by
  have hdata := @strncpy_data b (dir ++ slash :: name) 0 i (dir.length + 1) (by omega)
  rw [Nat.zero_add] at hdata
  have hput :
    ((strncpy (dir ++ slash :: name) 0 (dir.length + 1) b).put (dir.length + 1) 0).data i =
      (strncpy (dir ++ slash :: name) 0 (dir.length + 1) b).data i :=
    Function.update_of_ne (by omega) _ _
  have hsplit : dir ++ slash :: name = dir ++ [slash] ++ name := by simp
  rw [hput, hdata, hsplit, List.getD_append _ _ _ _ (by simp; omega)]

/-- What `dirname` holds. -/
theorem holds_putDirname (hz : 0 ∉ dir) (name : List UInt8) (b : Buf) :
    (putDirname (dir ++ slash :: name) (dir.length + 1) b).Holds
      (if dir = [] then [slash] else dir) := by
  have hlast : ((strncpy (dir ++ slash :: name) 0 (dir.length + 1) b).put (dir.length + 1) 0).data
      dir.length = slash := by
    rw [strncpy_dir dir name b le_rfl]
    simp
  unfold putDirname
  dsimp only
  rw [Nat.add_sub_cancel]
  by_cases hnil : dir = []
  · subst hnil
    rw [if_pos rfl, if_neg (by simp)]
    exact @holds_strncpy [slash] (by decide) name b
  · have hpos := List.length_pos_of_ne_nil hnil
    rw [if_neg hnil, if_pos ⟨by omega, hlast⟩]
    refine ⟨fun i hi => ?_, Function.update_self .., hz⟩
    have hdir : (dir ++ [slash]).getD i 0 = dir[i] := by
      rw [List.getD_append _ _ _ _ hi, List.getD_eq_getElem _ _ hi]
    exact (Function.update_of_ne hi.ne _ _).trans ((strncpy_dir dir name b hi.le).trans hdir)

/-- `dirname` is written up to the NUL. -/
theorem written_putDirname (path : List UInt8) (pos : ℕ) (d : ℕ → UInt8) :
    (∀ i ∈ (putDirname path pos ⟨d, []⟩).written, i < maxPathLen) ↔ pos < maxPathLen := by
  have hput : ((strncpy path 0 pos ⟨d, []⟩).put pos 0).written = List.range' 0 pos ++ [pos] := by
    show (strncpy path 0 pos ⟨d, []⟩).written ++ [pos] = _
    rw [strncpy_written, List.nil_append]
  unfold putDirname
  dsimp only
  constructor
  · intro h
    apply h
    split_ifs
    · exact List.mem_append_left _ (hput ▸ List.mem_append_right _ List.mem_cons_self)
    · exact hput ▸ List.mem_append_right _ List.mem_cons_self
  · intro h i hi
    have hle : i ≤ pos := by
      split_ifs at hi
      · rcases List.mem_append.mp hi with hi | hi
        · rw [hput] at hi
          simp at hi
          omega
        · have hi := List.mem_singleton.mp hi
          omega
      · rw [hput] at hi
        simp at hi
        omega
    exact Nat.lt_of_le_of_lt hle h

theorem written_basename (src : List UInt8) (n : ℕ) (d : ℕ → UInt8) :
    (∀ i ∈ ((strncpy src 0 n ⟨d, []⟩).put n 0).written, i < maxPathLen) ↔ n < maxPathLen := by
  have hput : ((strncpy src 0 n ⟨d, []⟩).put n 0).written = List.range' 0 n ++ [n] := by
    show (strncpy src 0 n ⟨d, []⟩).written ++ [n] = _
    rw [strncpy_written, List.nil_append]
  rw [hput]
  constructor
  · exact fun h => h n (List.mem_append_right _ List.mem_cons_self)
  · intro h i hi
    simp at hi
    omega

/-- What the arrays hold gives the path, but for a name in a root that is written with two `'/'`. -/
theorem join_iff : join (if dir = [] then [slash] else dir) name = dir ++ slash :: name ↔
    dir ≠ [slash] := by
  unfold join
  by_cases hnil : dir = []
  · subst hnil
    simp
  · rw [if_neg hnil]
    split_ifs with hroot
    · subst hroot
      simp
    · exact iff_of_true rfl hroot

/-! ### When it works -/

/-- The arrays behind `bname`. -/
def splitArrays (dir name : List UInt8) (d b : ℕ → UInt8) : Arrays :=
  ⟨putDirname (dir ++ slash :: name) (dir.length + 1) ⟨d, []⟩,
    (strncpy name 0 name.length ⟨b, []⟩).put name.length 0⟩

/-- `bname`, with the directory and the name of the path. -/
theorem wp_bname (hname : slash ∉ name) (Q : Arrays → Prop) (d b : ℕ → UInt8) :
    wp (bname (dir ++ slash :: name)) (fun _ => Q) (fun _ _ => True) ⟨⟨d, []⟩, ⟨b, []⟩⟩ ↔
      (dir.length + 1 ≤ maxPathLen → name.length ≤ maxPathLen → Q (splitArrays dir name d b)) := by
  have hlen : (dir ++ slash :: name).length - (dir.length + 1) = name.length := by
    simp
    omega
  have hdrop : (dir ++ slash :: name).drop (dir.length + 1) = name := by
    rw [List.drop_append]
    simp
  have hslash : (dir ++ slash :: name).getD dir.length 0 = slash := by simp
  have hpos : lastSlash (dir ++ slash :: name) (dir ++ slash :: name).length = dir.length :=
    lastSlash_eq hname (by simp)
  simp only [bname, hpos, if_pos hslash, hlen, hdrop, wp_ite, wp_bind, wp_modify, wp_halt]
  by_cases hdir : dir.length + 1 ≤ maxPathLen
  · rw [if_pos hdir, imp_iff_right hdir]
    by_cases hle : name.length ≤ maxPathLen
    · rw [if_pos hle, imp_iff_right hle]
      rfl
    · rw [if_neg hle]
      exact iff_of_true trivial fun h => absurd h hle
  · rw [if_neg hdir]
    exact iff_of_true trivial fun h => absurd h hdir

/-- The arrays split the path, if they are long enough. -/
theorem splits_iff (hdir : 0 ∉ dir) (hname : 0 ∉ name) (hslash : slash ∉ name) (d b : ℕ → UInt8) :
    (splitArrays dir name d b).Splits (dir ++ slash :: name) ↔
      dir.length + 1 < maxPathLen ∧ name.length < maxPathLen ∧ dir ≠ [slash] := by
  have hd : (splitArrays dir name d b).dirname.Holds _ := holds_putDirname hdir name ⟨d, []⟩
  have hb : (splitArrays dir name d b).basename.Holds name := by
    have hholds := holds_strncpy hname [] ⟨b, []⟩
    rw [List.append_nil] at hholds
    exact hholds
  have hwritten : (∀ i ∈ (splitArrays dir name d b).dirname.written, i < maxPathLen) ↔
      dir.length + 1 < maxPathLen := written_putDirname ..
  have hwritten' : (∀ i ∈ (splitArrays dir name d b).basename.written, i < maxPathLen) ↔
      name.length < maxPathLen := written_basename ..
  unfold Arrays.Splits
  rw [hwritten, hwritten', ← @join_iff dir name]
  refine and_congr_right fun _ => and_congr_right fun _ => ⟨?_, fun h => ⟨_, _, hd, hb, hslash, h⟩⟩
  rintro ⟨dir', name', hd', hb', -, hjoin⟩
  rwa [hd'.unique hd, hb'.unique hb] at hjoin

/-- `bname` is right if it stops, or the arrays are long enough. -/
theorem splitRight_iff (hdir : 0 ∉ dir) (hname : 0 ∉ name) (hslash : slash ∉ name) :
    SplitRight (dir ++ slash :: name) ↔ maxPathLen < dir.length + 1 ∨ maxPathLen < name.length ∨
      dir.length + 1 < maxPathLen ∧ name.length < maxPathLen ∧ dir ≠ [slash] := by
  have hstops (d b : ℕ → UInt8) :=
    @wp_bname dir name hslash (fun a => a.Splits (dir ++ slash :: name)) d b
  unfold SplitRight
  simp only [hstops, splits_iff hdir hname hslash]
  refine ⟨fun h => ?_, fun h _ _ _ _ => ?_⟩
  · have h := h (fun _ => 0) fun _ => 0
    by_cases hd : dir.length + 1 ≤ maxPathLen
    · by_cases hn : name.length ≤ maxPathLen
      · exact .inr (.inr (h hd hn))
      · exact .inr (.inl (not_le.mp hn))
    · exact .inl (not_le.mp hd)
  · rcases h with h | h | h
    · omega
    · omega
    · exact h

end

/-! ### `bname` -/

/-- A path has a directory and a name: what stands before and behind its last `'/'`. -/
theorem exists_split {path : List UInt8} (h : slash ∈ path) :
    ∃ dir name, path = dir ++ slash :: name ∧ slash ∉ name := by
  obtain ⟨as, bs, hsplit, has⟩ := List.eq_append_cons_of_mem (List.mem_reverse.mpr h)
  refine ⟨bs.reverse, as.reverse, ?_, by simpa using has⟩
  rw [← List.reverse_reverse path, hsplit]
  simp

/-- **`bname` stops at an assertion, or splits the path, exactly if the directory with its `'/'`,
or the name, is longer than an array, or both are shorter, and the name is not in a root that is
written with two `'/'`.** -/
theorem bname_iff {path : List UInt8} (habs : path.head? = some slash) (hz : 0 ∉ path) :
    ∃ dir name, path = dir ++ slash :: name ∧ slash ∉ name ∧
      (SplitRight path ↔ maxPathLen < dir.length + 1 ∨ maxPathLen < name.length ∨
        dir.length + 1 < maxPathLen ∧ name.length < maxPathLen ∧ dir ≠ [slash]) := by
  obtain ⟨dir, name, rfl, hslash⟩ := exists_split (List.mem_of_head? habs)
  rw [List.mem_append, List.mem_cons, not_or, not_or] at hz
  exact ⟨dir, name, rfl, hslash, splitRight_iff hz.1 hz.2.2 hslash⟩

/-- `"/a"` is split. -/
theorem bname_iff_letter : SplitRight [47, 97] := by
  obtain ⟨dir, name, hpath, hslash, hiff⟩ := @bname_iff [47, 97] rfl (by decide)
  rw [hiff]
  have hlen := congrArg List.length hpath
  simp at hlen
  refine .inr (.inr ⟨by unfold maxPathLen; omega, by unfold maxPathLen; omega, ?_⟩)
  rintro rfl
  have hletter : (97 : UInt8) = slash := (List.cons.inj (List.cons.inj hpath).2).1
  exact absurd hletter (by decide)

/-- A name of 512 characters is let through, and the NUL behind it is written out of the array. -/
theorem not_bname : ¬∀ path : List UInt8, path.head? = some slash → path.getLast? ≠ some slash →
    0 ∉ path → SplitRight path := by
  intro h
  obtain ⟨name, hname⟩ : ∃ name, name = List.replicate 512 (97 : UInt8) := ⟨_, rfl⟩
  have hlen : name.length = 512 := hname ▸ List.length_replicate
  have hletters (c : UInt8) (hc : c ≠ 97) : c ∉ name := fun hmem =>
    hc (List.eq_of_mem_replicate (hname ▸ hmem))
  have hslash := hletters slash (by decide)
  have hzero := hletters 0 (by decide)
  have hlast : (slash :: name).getLast? ≠ some slash := by
    cases name with
    | nil => cases hlen
    | cons c name =>
      rw [List.getLast?_cons_cons]
      exact fun hlast => hslash (List.mem_of_getLast? hlast)
  have hright := h ([] ++ slash :: name) rfl hlast
    (List.not_mem_cons_of_ne_of_not_mem (by decide) hzero)
  rw [splitRight_iff List.not_mem_nil hzero hslash, hlen] at hright
  exact absurd hright (by decide)

end Cosiris.Vfs
