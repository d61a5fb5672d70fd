import Cosiris.Cofs.Dir

/-!
# The entries of a directory

The bytes of a directory, seen as a list of entries. Writing an entry at a multiple of
32 replaces one entry of the list, or adds one at its end, and the walks of the source
find the first entry of the list that passes their test.
-/

namespace Cosiris.Cofs

open Function Prog

/-! ### The bytes of one entry -/

@[simp] theorem CStr.length_pad (name : CStr) (n : ℕ) : (name.pad n).length = n := by
  simp [CStr.pad]
  omega

@[simp] theorem length_putDirent (inum : ℕ) (name : CStr) : (putDirent inum name).length = 32 := by
  simp [putDirent]

theorem CStr.ext {a b : CStr} (h : a.bytes = b.bytes) : a = b := by
  cases a
  cases b
  cases h
  rfl

theorem CStr.take_of_le {name : CStr} {n : ℕ} (h : name.bytes.length ≤ n) : name.take n = name :=
  CStr.ext (List.take_of_length_le h)

theorem CStr.take_eq_iff {name c : CStr} {n : ℕ} (hc : c.bytes.length < n) :
    name.take n = c ↔ name = c := by
  constructor
  · rintro rfl
    have hlen : (name.bytes.take n).length < n := hc
    rw [List.length_take] at hlen
    exact (CStr.take_of_le (by omega)).symm
  · rintro rfl
    exact CStr.take_of_le (by omega)

theorem takeWhile_nonzero {l : List UInt8} (h : 0 ∉ l) (rest : List UInt8) :
    (l ++ rest).takeWhile (· ≠ 0) = l ++ rest.takeWhile (· ≠ 0) :=
  List.takeWhile_append_of_pos fun _ hx => decide_eq_true fun h0 => h (h0 ▸ hx)

section

variable [Stack]

/-- The string that a name has become when it was written to an entry and is read back. -/
def CStr.stored (name : CStr) : CStr := cstr (name.pad 28 ++ Stack.behind.bytes)

theorem CStr.stored_of_lt {name : CStr} (h : name.bytes.length < 28) : name.stored = name := by
  refine CStr.ext ?_
  show (name.bytes.take 28 ++ List.replicate (28 - name.bytes.length) 0 ++
    Stack.behind.bytes).takeWhile
    (· ≠ 0) = name.bytes
  obtain ⟨n, hn⟩ : ∃ n, 28 - name.bytes.length = n + 1 := ⟨27 - name.bytes.length, by omega⟩
  rw [List.take_of_length_le h.le, hn, List.append_assoc, takeWhile_nonzero name.nonzero]
  simp [List.replicate_succ]

/-- A name that fills the array. -/
theorem CStr.stored_of_le {name : CStr} (h : 28 ≤ name.bytes.length) :
    name.stored.bytes = name.bytes.take 28 ++ Stack.behind.bytes := by
  show (name.bytes.take 28 ++ List.replicate (28 - name.bytes.length) 0 ++
    Stack.behind.bytes).takeWhile
    (· ≠ 0) = _
  rw [Nat.sub_eq_zero_of_le h, List.replicate_zero, List.append_nil,
    takeWhile_nonzero fun h0 => name.nonzero (List.mem_of_mem_take h0)]
  have hbehind := takeWhile_nonzero Stack.behind.nonzero []
  rw [List.append_nil, List.takeWhile_nil, List.append_nil] at hbehind
  rw [hbehind]

/-- **An entry that was written is read back.** -/
theorem getDirent_putDirent (inum : ℕ) (name : CStr) :
    getDirent (putDirent inum name) = ⟨inum % 2 ^ 32, name.stored⟩ := by
  unfold getDirent putDirent
  rw [List.take_left' (length_leBytes 4 inum), List.drop_left' (length_leBytes 4 inum),
    leVal_leBytes]
  rfl

end

/-! ### The list of entries -/

section

variable [Stack]

/-- The entries of a directory with the given bytes. -/
def slots (data : List UInt8) : List Dirent :=
  (List.range (data.length / 32)).map fun k => getDirent ((data.drop (32 * k)).take 32)

@[simp] theorem length_slots (data : List UInt8) : (slots data).length = data.length / 32 := by
  simp [slots]

theorem getElem_slots {data : List UInt8} {k : ℕ} (h : k < (slots data).length) :
    (slots data)[k] = getDirent ((data.drop (32 * k)).take 32) := by
  simp [slots]

/-- The name of an entry is shorter than the array, or it goes on behind it. -/
theorem mem_slots_name {data : List UInt8} {e : Dirent} (h : e ∈ slots data) :
    e.name.bytes.length < 28 ∨ ∃ array : List UInt8, array.length = 28 ∧
      e.name.bytes = array ++ Stack.behind.bytes := by
  obtain ⟨k, hk, rfl⟩ := List.mem_map.mp h
  rw [List.mem_range] at hk
  have hlen : (((data.drop (32 * k)).take 32).drop 4).length = 28 := by
    rw [List.length_drop, List.length_take, List.length_drop]
    omega
  unfold getDirent cstr
  dsimp only
  generalize ((data.drop (32 * k)).take 32).drop 4 = array at hlen
  by_cases h0 : 0 ∈ array
  · obtain ⟨l, r, rfl, hl⟩ := List.eq_append_cons_of_mem h0
    left
    rw [List.length_append, List.length_cons] at hlen
    rw [List.append_assoc, takeWhile_nonzero hl]
    simp
    omega
  · right
    have hbehind := takeWhile_nonzero Stack.behind.nonzero []
    rw [List.append_nil, List.takeWhile_nil, List.append_nil] at hbehind
    exact ⟨array, hlen, by rw [takeWhile_nonzero h0, hbehind]⟩

/-- A name in a directory is what is read back of it. -/
theorem stored_of_mem {data : List UInt8} {e : Dirent} (h : e ∈ slots data) :
    e.name.stored = e.name := by
  rcases mem_slots_name h with hlt | ⟨array, hlen, hname⟩
  · exact CStr.stored_of_lt hlt
  · refine CStr.ext ?_
    rw [CStr.stored_of_le (by rw [hname, List.length_append]; omega), hname, List.take_left' hlen]

end

/-- Entry `k` of a list replaced, or a new entry at the end. -/
def putSlot (l : List Dirent) (k : ℕ) (e : Dirent) : List Dirent := l.take k ++ e :: l.drop (k + 1)

theorem length_overlay {old bs : List UInt8} {offset : ℕ} (h : offset ≤ old.length) :
    (overlay old offset bs).length = max old.length (offset + bs.length) := by
  simp [overlay]
  omega

/-- **Writing an entry.** -/
theorem slots_overlay [Stack] {data bs : List UInt8} {k : ℕ} (hd : data.length % 32 = 0)
    (hk : 32 * k ≤ data.length)
    (hb : bs.length = 32) :
    slots (overlay data (32 * k) bs) = putSlot (slots data) k (getDirent bs) := by
  have hlen : (overlay data (32 * k) bs).length = max data.length (32 * k + bs.length) :=
    length_overlay hk
  unfold putSlot
  refine List.ext_getElem ?_ fun j h1 h2 => ?_
  · simp only [List.length_append, List.length_cons, List.length_take,
      List.length_drop, length_slots, hlen, hb]
    omega
  · rw [getElem_slots h1]
    rw [length_slots, hlen, hb] at h1
    rcases Nat.lt_trichotomy j k with hj | rfl | hj
    · rw [List.getElem_append_left (by simp; omega), List.getElem_take, getElem_slots]
      unfold overlay
      rw [List.append_assoc, List.drop_append_of_le_length (by simp; omega),
        List.take_append_of_le_length (by simp; omega), List.drop_take, List.take_take]
      congr 2
      omega
    · have hz : j - (List.take j (slots data)).length = 0 := by simp; omega
      rw [List.getElem_append_right (by simp)]
      simp only [hz, List.getElem_cons_zero]
      unfold overlay
      rw [List.append_assoc, List.drop_left' (by simp; omega), List.take_left' hb]
    · rw [List.getElem_append_right (by simp; omega)]
      obtain ⟨m, hm⟩ : ∃ m, j - (List.take k (slots data)).length = m + 1 :=
        ⟨j - k - 1, by simp; omega⟩
      simp only [hm, List.getElem_cons_succ, List.getElem_drop, getElem_slots]
      have hm : k + 1 + m = j := by simp at hm; omega
      unfold overlay
      rw [hm, List.drop_append, List.drop_eq_nil_of_le (by simp; omega), List.nil_append,
        List.drop_drop]
      congr 3
      simp
      omega

/-! ### The walks -/

section

variable {s : Fs} {i : ℕ} {test : Dirent → Bool} {Q : Bool × ℕ × List UInt8 → Fs → Prop}
  {E : Halt → Fs → Prop}

/-- The contents of the file of a node. -/
def Fs.data (s : Fs) (i : ℕ) : List UInt8 := contents s.dev.disk (s.node i).addrs (s.node i).size

@[simp] theorem Fs.length_data (s : Fs) (i : ℕ) : (s.data i).length = (s.node i).size :=
    length_contents _ _ _

/-- Reading an entry. -/
theorem wp_read_dirent (hh : s.dev.held = [])
    (hf : Filled s.dev.disk (s.node i).addrs (s.node i).size) {offs : ℕ}
    (ho : offs ≤ (s.node i).size) {Q : ℕ × List UInt8 → Fs → Prop} :
    wp (onNode i (cofsRead offs 32)) Q E s =
      Q (min 32 ((s.node i).size - offs), ((s.data i).drop offs).take 32) s := by
  have := hf.1
  rw [wp_onNode, cofsRead_eq hh hf (by omega)]
  dsimp only
  rw [Fs.put_self]
  rfl

variable [Stack]

theorem scan_spec (hh : s.dev.held = []) (hf : Filled s.dev.disk (s.node i).addrs (s.node i).size)
    (hd : (s.node i).size % 32 = 0)
    (hfound : ∀ k (h : k < (slots (s.data i)).length), test (slots (s.data i))[k] = true →
      (∀ j (h : j < k), test ((slots (s.data i)).get ⟨j, by omega⟩) = false) →
      ∀ buf, getDirent buf = (slots (s.data i))[k] → Q (true, 32 * k, buf) s)
    (hnone : (∀ e ∈ slots (s.data i), test e = false) → ∀ buf, Q (false, (s.node i).size, buf) s)
    {n k : ℕ} (hn : (s.node i).size / 32 < n + k) (hk : k ≤ (s.node i).size / 32)
    (hbefore : ∀ j (h : j < (slots (s.data i)).length), j < k → test (slots (s.data i))[j] = false)
    {buf : List UInt8} (hb : buf.length = 32) : wp (scan i test n (32 * k) buf) Q E s := by
  induction n generalizing k buf with
  | zero => omega
  | succ n ih =>
    rw [scan, wp_bind, wp_read_dirent hh hf (by omega)]
    dsimp only
    rw [wp_ite]
    have hlen : (slots (s.data i)).length = (s.node i).size / 32 := by simp
    by_cases h0 : min 32 ((s.node i).size - 32 * k) = 0
    · obtain rfl : k = (s.node i).size / 32 := by omega
      have hsz : 32 * ((s.node i).size / 32) = (s.node i).size := by omega
      rw [if_pos h0, wp_pure, hsz]
      refine hnone (fun e he => ?_) buf
      obtain ⟨j, hj, rfl⟩ := List.getElem_of_mem he
      exact hbefore j hj (by omega)
    · have hk' : k < (slots (s.data i)).length := by omega
      have hm : min 32 ((s.node i).size - 32 * k) = 32 := by omega
      have hread : (((s.data i).drop (32 * k)).take 32).length = 32 := by simp; omega
      have hbuf : ((s.data i).drop (32 * k)).take 32 ++ buf.drop 32 =
        ((s.data i).drop (32 * k)).take 32 := by
        rw [List.drop_eq_nil_of_le (Nat.le_of_eq hb), List.append_nil]
      rw [if_neg h0, hm, hbuf, ← getElem_slots hk', wp_ite]
      by_cases ht : test (slots (s.data i))[k] = true
      · rw [if_pos ht]
        exact hfound k hk' ht (fun j hj => hbefore j (by omega) hj) _ (getElem_slots hk').symm
      · rw [if_neg ht, show 32 * k + 32 = 32 * (k + 1) by omega]
        refine ih (by omega) (by omega) (fun j hj hjk => ?_) hread
        rcases (by omega : j < k ∨ j = k) with hj' | rfl
        · exact hbefore j hj hj'
        · exact Bool.eq_false_iff.mpr ht

/-- **A walk finds the first entry that passes the test.** -/
theorem scanDir_spec (hh : s.dev.held = [])
    (hf : Filled s.dev.disk (s.node i).addrs (s.node i).size) (hd : (s.node i).size % 32 = 0)
    (hfound : ∀ k (h : k < (slots (s.data i)).length), test (slots (s.data i))[k] = true →
      (∀ j (h : j < k), test ((slots (s.data i)).get ⟨j, by omega⟩) = false) →
      ∀ buf, getDirent buf = (slots (s.data i))[k] → Q (true, 32 * k, buf) s)
    (hnone : (∀ e ∈ slots (s.data i), test e = false) → ∀ buf, Q (false, (s.node i).size, buf) s) :
    wp (scanDir i test) Q E s := by
  rw [scanDir, wp_bind, wp_getNode]
  exact scan_spec hh hf hd hfound hnone (k := 0) (by omega) (Nat.zero_le _)
    (fun j _ hj => absurd hj (Nat.not_lt_zero j))
    (by simp)

end

end Cosiris.Cofs
