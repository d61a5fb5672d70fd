import Cosiris.Libc.File

/-!
# Input from a stream

What a stream that is open for reading has still to deliver is the bytes between `tail` and
`head`, and then those that `read` has not delivered. `fgets` takes a byte off the stream before
it looks if there is room for it, `getline` says that it is at the end of the file when it has
just met it behind a last line, and all but `fread` take the byte 255 for the end of the file. -/

namespace Cosiris.Stdio

open Prog

/-- What the stream has still to deliver. -/
def File.rest (fp : File) : List UInt8 :=
  Ring.segment fp.buf fp.size fp.tail (fp.head - fp.tail) ++ fp.unread

/-- The stream is open for reading, and has `rest` to deliver. -/
structure File.Reading (fp : File) (rest : List UInt8) : Prop where
  size_pos : 0 < fp.size
  tail_le : fp.tail ≤ fp.head
  head_lt : fp.head + fp.unread.length < 2 ^ 31
  flags : fp.flags = fRdonly ∨ fp.flags = fRdonly ||| fEof ∧ rest = []
  rest : fp.rest = rest

section

variable {cut : ℕ → ℕ} {fp : File} {rest : List UInt8} {c : UInt8}

theorem File.Reading.flags_of_ne (h : fp.Reading rest) (hne : rest ≠ []) : fp.flags = fRdonly :=
  h.flags.resolve_right fun hc => hne hc.2

theorem File.Reading.unread_of_empty (h : fp.Reading rest) (he : fp.empty) : fp.unread = rest := by
  have hr := h.rest
  unfold File.rest at hr
  unfold File.empty at he
  rwa [he, Nat.sub_self, Ring.segment_zero, List.nil_append] at hr

theorem delivers_pos (cut : ℕ → ℕ) {n left : ℕ} (hn : 0 < n) (hl : 0 < left) :
    0 < delivers cut n left := by
  unfold delivers
  omega

theorem delivers_le (cut : ℕ → ℕ) (n left : ℕ) :
    delivers cut n left ≤ n ∧ delivers cut n left ≤ left := by
  unfold delivers
  omega

/-- The cells that a `read` has filled. -/
theorem segment_filled (buf : ℕ → UInt8) (data : List UInt8) {n r k : ℕ} (hfit : r % n + k ≤ n)
    (hk : k ≤ data.length) :
    Ring.segment (fun i => if r % n ≤ i ∧ i < r % n + k then data.getD (i - r % n) 0 else buf i) n r
      k = data.take k := by
  rw [Ring.segment_linear _ hfit]
  refine List.ext_getElem (by simp [hk]) fun i h₁ h₂ => ?_
  have hi : i < k := by simpa using h₁
  rw [List.getElem_map, List.getElem_range, if_pos ⟨by omega, by omega⟩, Nat.add_sub_cancel_left,
    List.getElem_take,
    List.getD_eq_getElem?_getD, List.getElem?_eq_getElem (by omega), Option.getD_some]

/-- At the end of the file nothing is filled. -/
theorem wp_fillEmpty_nil (h : fp.Reading []) :
    wp (fillEmpty cut) (fun n fp' => n < 0 ∧ fp'.Reading [] ∧ fp'.flags = fRdonly ||| fEof)
      (fun _ _ => False) fp := by
  have hrest : _ ++ _ = [] := h.rest
  obtain ⟨hseg, hun⟩ := List.append_eq_nil_iff.mp hrest
  have hempty : fp.empty := by
    have hlen := congrArg List.length hseg
    rw [Ring.length_segment] at hlen
    have hle := h.tail_le
    have : fp.head - fp.tail = 0 := hlen
    unfold File.empty
    omega
  have hpos : fp.head % fp.size < fp.size := Nat.mod_lt _ h.size_pos
  rw [fillEmpty, wp_bind, wp_read, if_pos hempty, fillBuf, wp_bind, wp_read]
  rcases h.flags with hf | ⟨hf, -⟩
  · have hhas : fp.has (fEof ||| fErr ||| fWronly) = false := by unfold File.has; rw [hf]; decide
    have hzero : delivers cut (fp.size - fp.head % fp.size) fp.unread.length = 0 := by
      have := (delivers_le cut (fp.size - fp.head % fp.size) fp.unread.length).2
      rw [hun] at this ⊢
      exact Nat.le_zero.mp this
    rw [hhas]
    simp only [Bool.false_eq_true, if_false, readFd, wp_bind, wp_read, wp_ite, wp_modify, wp_pure,
      wp_halt, setFlag]
    rw [hzero, if_pos (by omega), if_pos (by decide), if_pos (by decide)]
    refine ⟨by decide, ⟨h.size_pos, h.tail_le, ?_, Or.inr ⟨?_, rfl⟩, ?_⟩, ?_⟩
    · show fp.head + (fp.unread.drop 0).length < _
      exact h.head_lt
    · show fp.flags ||| fEof = _
      rw [hf]
    · show Ring.segment _ fp.size fp.tail (fp.head - fp.tail) ++ fp.unread.drop 0 = []
      unfold File.empty at hempty
      rw [hempty, Nat.sub_self, Ring.segment_zero, hun]
      rfl
    · show fp.flags ||| fEof = _
      rw [hf]
  · have hhas : fp.has (fEof ||| fErr ||| fWronly) = true := by unfold File.has; rw [hf]; decide
    rw [hhas, if_pos rfl, wp_pure]
    exact ⟨by decide, h, hf⟩

/-- Elsewhere there is a byte in the buffer then. -/
theorem wp_fillEmpty_cons (h : fp.Reading (c :: rest)) :
    wp (fillEmpty cut) (fun n fp' => 0 ≤ n ∧ fp'.Reading (c :: rest) ∧ fp'.tail < fp'.head)
      (fun _ _ => False) fp := by
  have hle := h.tail_le
  have hlt := h.head_lt
  rw [fillEmpty, wp_bind, wp_read, wp_ite]
  by_cases hempty : fp.empty
  · have hun := h.unread_of_empty hempty
    have hf := h.flags_of_ne (List.cons_ne_nil _ _)
    have hhas : fp.has (fEof ||| fErr ||| fWronly) = false := by unfold File.has; rw [hf]; decide
    have hpos : fp.head % fp.size < fp.size := Nat.mod_lt _ h.size_pos
    have hleft : 0 < fp.unread.length := by rw [hun]; exact Nat.succ_pos _
    have hk := delivers_pos cut (show 0 < fp.size - fp.head % fp.size by omega) hleft
    obtain ⟨hkn, hkl⟩ := delivers_le cut (fp.size - fp.head % fp.size) fp.unread.length
    rw [if_pos hempty, fillBuf, wp_bind, wp_read, hhas]
    simp only [Bool.false_eq_true, if_false, readFd, addHead, wp_bind, wp_read, wp_ite, wp_modify,
      wp_pure, wp_halt]
    rw [if_pos (by omega), if_neg (by omega), Int.toNat_natCast]
    generalize delivers cut (fp.size - fp.head % fp.size) fp.unread.length = k at *
    rw [if_pos (by show fp.head + k < _; omega)]
    refine ⟨by omega, ⟨h.size_pos, by show fp.tail ≤ fp.head + k; omega, ?_, Or.inl hf, ?_⟩, ?_⟩
    · show fp.head + k + (fp.unread.drop k).length < _
      rw [List.length_drop]
      omega
    · unfold File.empty at hempty
      show Ring.segment _ fp.size fp.tail (fp.head + k - fp.tail) ++ fp.unread.drop k = _
      rw [hempty, Nat.add_sub_cancel_left, segment_filled fp.buf fp.unread (by omega) hkl,
        List.take_append_drop, hun]
    · unfold File.empty at hempty
      show fp.tail < fp.head + k
      omega
  · rw [if_neg hempty, wp_pure]
    unfold File.empty at hempty
    exact ⟨by omega, h, by omega⟩

/-- The first byte is taken from the buffer. -/
theorem wp_getByte (h : fp.Reading (c :: rest)) (hlt : fp.tail < fp.head) :
    wp getByte (fun b fp' => b = c ∧ fp'.Reading rest ∧ fp'.flags = fRdonly)
      (fun _ _ => False) fp := by
  have hf := h.flags_of_ne (List.cons_ne_nil _ _)
  have hmax := h.head_lt
  have hmod : fp.tail % fp.size < fp.size := Nat.mod_lt _ h.size_pos
  have hrest := h.rest
  unfold File.rest at hrest
  rw [show fp.head - fp.tail =
    fp.head - (fp.tail + 1) + 1 by omega, Ring.segment_pop, List.cons_append] at hrest
  obtain ⟨hc, hr⟩ := List.cons.inj hrest
  simp only [getByte, addTail, load, wp_bind, wp_read, wp_ite, wp_modify, wp_pure, wp_halt]
  rw [if_pos (by omega), if_pos hmod]
  exact ⟨hc, ⟨h.size_pos, by show fp.tail + 1 ≤ fp.head; omega, hmax, Or.inl hf, hr⟩, hf⟩

theorem wp_fgetc_nil (h : fp.Reading []) :
    wp (fgetc cut) (fun r fp' => r = eof ∧ fp'.Reading [] ∧ fp'.flags = fRdonly ||| fEof)
      (fun _ _ => False) fp := by
  rw [fgetc, wp_bind]
  refine (wp_fillEmpty_nil h).mono (fun n fp' hn => ?_) fun _ _ => id
  rw [if_pos hn.1, wp_pure]
  exact ⟨rfl, hn.2⟩

theorem wp_fgetc_cons (h : fp.Reading (c :: rest)) :
    wp (fgetc cut) (fun r fp' => r = ofChar c ∧ fp'.Reading rest ∧ fp'.flags = fRdonly)
      (fun _ _ => False) fp := by
  rw [fgetc, wp_bind]
  refine (wp_fillEmpty_cons h).mono (fun n fp' hn => ?_) fun _ _ => id
  obtain ⟨hn, hr, hlt⟩ := hn
  rw [if_neg (by omega), wp_bind]
  refine (wp_getByte hr hlt).mono (fun b fp'' hb => ?_) fun _ _ => id
  exact ⟨by rw [hb.1], hb.2⟩

/-! ### The loops -/

/-- The first line: up to the newline, which belongs to it, or to the end. -/
def line : List UInt8 → List UInt8
  | [] => []
  | c :: rest => if c = newline then [c] else c :: line rest

@[simp] theorem line_newline (rest : List UInt8) : line (newline :: rest) = [newline] := by
  simp [line]

theorem line_cons (hc : c ≠ newline) : line (c :: rest) = c :: line rest := by simp [line, hc]

/-- Behind the first line. -/
def afterLine (rest : List UInt8) : List UInt8 := rest.drop (line rest).length

@[simp] theorem line_append_afterLine (rest : List UInt8) : line rest ++ afterLine rest = rest := by
  unfold afterLine
  induction rest with
  | nil => rfl
  | cons c rest ih =>
    by_cases hc : c = newline
    · subst hc
      rw [line_newline]
      rfl
    · rw [line_cons hc, List.length_cons, List.drop_succ_cons, List.cons_append, ih]

theorem toChar_eof : toChar eof = 255 := rfl

theorem wp_fgetsFrom {n : ℕ} {s : List UInt8} (h : fp.Reading rest) (hlen : (line rest).length ≤ n)
    (hff : 255 ∉ line rest) :
    wp (fgetsFrom cut n s) (fun r fp' => r = s ++ line rest ∧ fp'.Reading (afterLine rest))
      (fun _ _ => False) fp := by
  induction rest generalizing fp n s with
  | nil =>
    rw [fgetsFrom, wp_bind]
    refine (wp_fgetc_nil h).mono (fun r fp' hr => ?_) fun _ _ => id
    rw [if_pos (by rw [hr.1]), wp_pure, line, List.append_nil]
    exact ⟨rfl, hr.2.1⟩
  | cons c rest ih =>
    rw [fgetsFrom, wp_bind]
    refine (wp_fgetc_cons h).mono (fun r fp' hr => ?_) fun _ _ => id
    obtain ⟨rfl, hr, -⟩ := hr
    by_cases hc : c = newline
    · subst hc
      rw [line_newline] at hlen ⊢
      rw [toChar_ofChar, if_neg (by decide)]
      obtain ⟨n, rfl⟩ : ∃ m, n = m + 1 := ⟨n - 1, by simp at hlen; omega⟩
      dsimp only
      rw [if_pos rfl, wp_pure]
      exact ⟨rfl, hr⟩
    · rw [line_cons hc] at hlen hff
      rw [List.mem_cons, not_or] at hff
      rw [toChar_ofChar, if_neg (by rw [toChar_eof]; exact fun he => hff.1 he.symm)]
      obtain ⟨n, rfl⟩ : ∃ m, n = m + 1 := ⟨n - 1, by simp at hlen; omega⟩
      dsimp only
      rw [if_neg hc]
      refine (ih hr (by simp at hlen; omega) hff.2).mono (fun r fp'' hr => ?_) fun _ _ => id
      unfold afterLine
      rw [line_cons hc, List.length_cons, List.drop_succ_cons]
      exact ⟨by rw [hr.1, List.append_assoc, List.singleton_append], hr.2⟩

/-- After `i` bytes the line is there and has room for them. -/
def Line.Fits (l : Line) (i : ℕ) : Prop := l.isNull = false ∧ i < l.n.toNat

/-- The room for a first line is not doubled to 2³², which is 0. -/
def Line.Doubles (l : Line) : Prop := l.isNull = true → l.n ≠ 0x80000000

theorem Line.grow_fits {l : Line} {i : ℕ} (h : i = 0 ∧ l.Doubles ∨ l.Fits i) (hi : i + 1 < 2 ^ 31) :
    (l.grow i).Fits (i + 1) := by
  have hle : l.n ≤ UInt32.ofNat (i + 1) ↔ l.n.toNat ≤ i + 1 := by
    rw [UInt32.le_iff_toNat_le, UInt32.toNat_ofNat_of_lt' (show i + 1 < 2 ^ 32 by omega)]
  have hn := l.n.toNat_lt
  unfold Line.grow
  simp only [hle]
  split_ifs with hc h0
  · refine ⟨rfl, ?_⟩
    rcases h with ⟨rfl, -⟩ | hf
    · decide
    · have hpos := hf.2
      rw [h0] at hpos
      exact absurd hpos (Nat.not_lt_zero _)
  · refine ⟨rfl, ?_⟩
    show i + 1 < (l.n * 2).toNat
    have hmul : (l.n * 2).toNat = l.n.toNat * 2 % 2 ^ 32 := UInt32.toNat_mul ..
    have h0' : l.n.toNat ≠ 0 := fun he => h0 (UInt32.toNat_inj.mp he)
    rcases h with ⟨rfl, hd⟩ | hf
    · have hhalf : l.n.toNat ≠ 2 ^ 31 := by
        intro he
        rcases hc with hnull | hle
        · exact hd hnull (UInt32.toNat_inj.mp he)
        · omega
      omega
    · have hlt := hf.2
      rcases hc with hnull | hle
      · exact absurd (hf.1.symm.trans hnull) Bool.false_ne_true
      · omega
  · rw [not_or, Bool.not_eq_true] at hc
    exact ⟨hc.1, by omega⟩

theorem Line.Fits.check {l : Line} {i : ℕ} (h : l.Fits i) : l.check i = pure () := if_pos h

/-- `getline` stores the first line, and has met the end of the file if that has no newline. -/
theorem wp_getlineFrom {fuel : ℕ} {l : Line} {s : List UInt8} (h : fp.Reading rest)
    (hfuel : rest.length < fuel) (hlen : s.length + rest.length < 2 ^ 31)
    (hnl : newline ∈ rest ∨ s = [] ∧ rest = [])
    (hl : s.length = 0 ∧ l.Doubles ∨ l.Fits s.length) (hff : 255 ∉ line rest) :
    wp (getlineFrom cut fuel l s) (fun r fp' => r.2 = s ++ line rest ∧ r.1.Fits r.2.length ∧
      fp'.Reading (afterLine rest) ∧
      fp'.flags = if newline ∈ rest then fRdonly else fRdonly ||| fEof) (fun _ _ => False) fp := by
  induction rest generalizing fp fuel l s with
  | nil =>
    obtain ⟨fuel, rfl⟩ : ∃ m, fuel = m + 1 := ⟨fuel - 1, by simp at hfuel; omega⟩
    rw [getlineFrom, wp_bind]
    refine (wp_fgetc_nil h).mono (fun r fp' hr => ?_) fun _ _ => id
    have hs : s = [] := (hnl.resolve_left List.not_mem_nil).1
    have hg := Line.grow_fits hl (by rw [hs]; decide)
    rw [if_pos (by rw [hr.1]), wp_pure, line, List.append_nil]
    exact ⟨rfl, ⟨hg.1, Nat.lt_of_succ_lt hg.2⟩, hr.2.1, by simpa using hr.2.2⟩
  | cons c rest ih =>
    obtain ⟨fuel, rfl⟩ : ∃ m, fuel = m + 1 := ⟨fuel - 1, by simp at hfuel; omega⟩
    rw [List.length_cons] at hlen
    have hg := Line.grow_fits hl (by omega)
    have hroom : (l.grow s.length).Fits s.length := ⟨hg.1, Nat.lt_of_succ_lt hg.2⟩
    rw [getlineFrom, wp_bind]
    refine (wp_fgetc_cons h).mono (fun r fp' hr => ?_) fun _ _ => id
    obtain ⟨rfl, hr, hf⟩ := hr
    by_cases hc : c = newline
    · subst hc
      rw [toChar_ofChar, if_neg (by decide), hroom.check, pure_bind, if_pos rfl,
        wp_pure, line_newline]
      exact ⟨rfl, by simpa using hg, hr, by simpa using hf⟩
    · rw [line_cons hc, List.mem_cons, not_or] at hff
      rw [toChar_ofChar, if_neg (by rw [toChar_eof]; exact fun he => hff.1 he.symm), hroom.check,
        pure_bind, if_neg hc]
      have hnl' : newline ∈ rest :=
        (List.mem_cons.mp (hnl.resolve_right fun he => List.cons_ne_nil _ _ he.2)).resolve_left
          (Ne.symm hc)
      refine (ih hr (by simp at hfuel; omega) (by simp; omega) (.inl hnl')
        (Or.inr (by simpa using hg))
        hff.2).mono
        (fun r fp'' hr => ?_) fun _ _ => id
      unfold afterLine
      rw [line_cons hc, List.length_cons, List.drop_succ_cons]
      refine ⟨by rw [hr.1, List.append_assoc, List.singleton_append], hr.2.1, hr.2.2.1, ?_⟩
      simpa [Ne.symm hc] using hr.2.2.2

theorem wp_freadFrom {size n j : ℕ} {p : List UInt8} (h : fp.Reading rest) :
    wp (freadFrom cut size n j p) (fun r fp' => r.2 = p ++ rest.take n ∧ fp'.Reading (rest.drop n))
      (fun _ _ => False) fp := by
  induction n generalizing fp rest j p with
  | zero =>
    rw [freadFrom, wp_pure, List.take_zero, List.append_nil]
    exact ⟨rfl, h⟩
  | succ n ih =>
    rw [freadFrom, wp_bind]
    cases rest with
    | nil =>
      refine (wp_fillEmpty_nil h).mono (fun m fp' hm => ?_) fun _ _ => id
      rw [if_pos hm.1, wp_pure, List.take_nil, List.append_nil]
      exact ⟨rfl, hm.2.1⟩
    | cons c rest =>
      refine (wp_fillEmpty_cons h).mono (fun m fp' hm => ?_) fun _ _ => id
      rw [if_neg (by omega), wp_bind]
      refine (wp_getByte hm.2.1 hm.2.2).mono (fun b fp'' hb => ?_) fun _ _ => id
      obtain ⟨rfl, hr, -⟩ := hb
      refine (ih hr).mono (fun r _ hr => ⟨?_, hr.2⟩) fun _ _ => id
      rw [hr.1, List.append_assoc, List.singleton_append, List.take_succ_cons]

/-! ### Sequences of calls -/

/-- A call on a stream that is open for reading. -/
inductive Get where
  | fgetc
  | fgets (size : ℕ) (h : 2 ≤ size)
  | getline (l : Line)
  /-- The object has `nmemb` members of `size` bytes. -/
  | fread (size nmemb : ℕ) (h : nmemb * size < 2 ^ 32)

/-- A run of the call, and the bytes it delivers to the caller: none when it says that the file is
at its end. -/
def Get.exec (cut : ℕ → ℕ) : Get → Prog Fault File (List UInt8)
  | fgetc => do
    let c ← Stdio.fgetc cut
    return if c = eof then [] else [toChar c]
  | fgets size _ => do
    let s ← Stdio.fgets cut size
    return s.getD []
  | getline l => do
    let r ← Stdio.getline cut l
    return if r.1 = eof then [] else r.2.2
  | fread size nmemb _ => do
    let r ← Stdio.fread cut size nmemb
    return r.2

/-- The calls, one after the other, and all they deliver. -/
def getAll (cut : ℕ → ℕ) : List Get → Prog Fault File (List UInt8)
  | [] => pure []
  | c :: cs => do
    let s ← c.exec cut
    let t ← getAll cut cs
    return s ++ t

/-- No byte that the call takes for one of a line is 255, a line of `fgets` fits the buffer of the
caller, and one of `getline` has a newline and room. -/
def Get.Fits (rest : List UInt8) : Get → Prop
  | fgetc => rest.head? ≠ some 255
  | fgets size _ => (line rest).length < size ∧ 255 ∉ line rest
  | getline l => (rest = [] ∨ newline ∈ rest) ∧ 255 ∉ line rest ∧ l.Doubles
  | fread _ _ _ => True

/-- Each call fits where it is made. -/
def GetFits (cut : ℕ → ℕ) : File → List Get → Prop
  | _, [] => True
  | fp, c :: cs => c.Fits fp.rest ∧ ∀ s fp', c.exec cut fp = .ok s fp' → GetFits cut fp' cs

theorem ofChar_ne_eof (hc : c ≠ 255) : ofChar c ≠ eof := by
  intro h
  have := congrArg toChar h
  rw [toChar_ofChar, toChar_eof] at this
  exact hc this

/-- `getline` delivers the first line. -/
theorem wp_getline {l : Line} (h : fp.Reading rest) (hnl : rest = [] ∨ newline ∈ rest)
    (hff : 255 ∉ line rest) (hd : l.Doubles) :
    wp (getline cut l) (fun r fp' => (if r.1 = eof then [] else r.2.2) = line rest ∧
      fp'.Reading (afterLine rest))
      (fun _ _ => False) fp := by
  have hlen : rest.length < fp.head - fp.tail + fp.unread.length + 1 := by
    rw [← h.rest, File.rest, List.length_append, Ring.length_segment]
    omega
  have hlt := h.head_lt
  rw [getline, wp_bind, wp_read, wp_bind]
  have hnl' : newline ∈ rest ∨ ([] : List UInt8) = [] ∧ rest = [] :=
    hnl.symm.imp_right fun he => ⟨rfl, he⟩
  refine (wp_getlineFrom h hlen (by rw [List.length_nil]; omega) hnl' (Or.inl ⟨rfl, hd⟩) hff).mono
    (fun r fp' hr => ?_) fun _ _ => id
  obtain ⟨hs, hfit, hread, hflags⟩ := hr
  rw [List.nil_append] at hs
  dsimp only
  rw [hfit.check, pure_bind, wp_bind, wp_read, wp_ite]
  rcases hnl with rfl | hnl
  · rw [if_neg List.not_mem_nil] at hflags
    have hhas : fp'.has (fEof ||| fErr) = true := by unfold File.has; rw [hflags]; decide
    rw [hhas, if_pos rfl, wp_pure, if_pos rfl]
    exact ⟨rfl, hread⟩
  · rw [if_pos hnl] at hflags
    have hhas : fp'.has (fEof ||| fErr) = false := by unfold File.has; rw [hflags]; decide
    rw [hhas, if_neg Bool.false_ne_true, wp_pure, if_neg (by unfold eof; omega), hs]
    exact ⟨rfl, hread⟩

/-- A call that fits delivers what it takes off the stream. -/
theorem Get.exec_reading (cut : ℕ → ℕ) {c : Get} (h : fp.Reading rest) (hc : c.Fits rest) :
    wp (c.exec cut) (fun s fp' => ∃ rest', rest = s ++ rest' ∧ fp'.Reading rest')
      (fun _ _ => False) fp := by
  cases c with
  | fgetc =>
    rw [Get.exec, wp_bind]
    cases rest with
    | nil =>
      refine (wp_fgetc_nil h).mono (fun r fp' hr => ?_) fun _ _ => id
      rw [wp_pure, if_pos hr.1]
      exact ⟨[], rfl, hr.2.1⟩
    | cons b rest =>
      refine (wp_fgetc_cons h).mono (fun r fp' hr => ?_) fun _ _ => id
      have hne : b ≠ 255 := fun he => hc (by rw [he]; rfl)
      rw [wp_pure, hr.1, if_neg (ofChar_ne_eof hne), toChar_ofChar]
      exact ⟨rest, rfl, hr.2.1⟩
  | fgets size hsize =>
    rw [Get.exec, wp_bind, Stdio.fgets, wp_bind]
    refine (wp_fgetsFrom h (Nat.le_sub_one_of_lt hc.1) hc.2).mono (fun s fp' hs => ?_) fun _ _ => id
    rw [List.nil_append] at hs
    rw [wp_ite]
    split_ifs with h0
    · rw [wp_pure, wp_pure]
      refine ⟨afterLine rest, ?_, hs.2⟩
      rw [Option.getD_none, ← List.length_eq_zero_iff.mp h0, hs.1, line_append_afterLine]
    · rw [wp_pure, wp_pure]
      refine ⟨afterLine rest, ?_, hs.2⟩
      rw [Option.getD_some, hs.1, line_append_afterLine]
  | getline l =>
    rw [Get.exec, wp_bind]
    refine (wp_getline h hc.1 hc.2.1 hc.2.2).mono (fun r fp' hr => ?_) fun _ _ => id
    rw [wp_pure]
    exact ⟨afterLine rest, by rw [hr.1, line_append_afterLine], hr.2⟩
  | fread size nmemb hlt =>
    rw [Get.exec, wp_bind, Stdio.fread, Nat.mod_eq_of_lt hlt]
    refine (wp_freadFrom h).mono (fun r fp' hr => ?_) fun _ _ => id
    rw [wp_pure]
    exact ⟨rest.drop (nmemb * size), by rw [hr.1, List.nil_append, List.take_append_drop], hr.2⟩

theorem getAll_reading {cs : List Get} (h : fp.Reading rest) (hc : GetFits cut fp cs) :
    ∃ s rest' fp', getAll cut cs fp = .ok s fp' ∧ rest = s ++ rest' ∧ fp'.Reading rest' := by
  induction cs generalizing fp rest with
  | nil => exact ⟨[], rest, fp, rfl, rfl, h⟩
  | cons c cs ih =>
    have hfit := hc.1
    rw [h.rest] at hfit
    obtain ⟨s, fp₁, hexec, rest₁, hrest, hread⟩ := (Get.exec_reading cut h hfit).returns
    obtain ⟨t, rest₂, fp₂, hrun, hrest₂, hread₂⟩ := ih hread (hc.2 s fp₁ hexec)
    refine ⟨s ++ t, rest₂, fp₂, ?_, by rw [hrest, hrest₂, List.append_assoc], hread₂⟩
    show Prog.bind (c.exec cut) (fun s => Prog.bind (getAll cut cs) fun t => pure (s ++ t)) fp = _
    rw [Prog.bind, hexec]
    dsimp only
    rw [Prog.bind, hrun]
    rfl

end

theorem newFile_reading {content : List UInt8} (h : content.length < 2 ^ 31) :
    (newFile fRdonly content).Reading content :=
  ⟨by show 0 < allocBuf fRdonly bufSize; decide,
    Nat.le_refl 0, by show 0 + content.length < _; omega, Or.inl rfl, rfl⟩

/-- **Buffered input**: however `read` splits the content, of fewer than 2³¹ bytes, a sequence of
calls that fit delivers the content byte for byte up to where the stream then is, and all of it if
that is at the end of the file. -/
theorem input_faithful (cut : ℕ → ℕ) (content : List UInt8) (hlen : content.length < 2 ^ 31)
    (cs : List Get)
    (hcs : GetFits cut (newFile fRdonly content) cs) :
    ∃ s fp', getAll cut cs (newFile fRdonly content) = .ok s fp' ∧ s ++ fp'.rest = content ∧
      (fp'.has fEof = true → s = content) := by
  obtain ⟨s, rest, fp', hrun, hrest, hread⟩ := getAll_reading (newFile_reading hlen) hcs
  refine ⟨s, fp', hrun, by rw [hread.rest, hrest], fun he => ?_⟩
  rcases hread.flags with hf | ⟨-, hnil⟩
  · unfold File.has at he
    rw [hf] at he
    exact absurd he (by decide)
  · rw [hrest, hnil, List.append_nil]

/-- A line and the rest behind it, read one byte at a time. -/
theorem input_faithful_line :
    ∃ s fp', getAll (fun _ => 1) [.fgets 3 (by decide)] (newFile fRdonly [97, 10, 98]) = .ok s fp' ∧
      s ++ fp'.rest = [97, 10, 98] := by
  have hfits : GetFits (fun _ => 1) (newFile fRdonly [97, 10, 98]) [.fgets 3 (by decide)] :=
    ⟨⟨by decide, by decide⟩, fun _ _ _ => trivial⟩
  obtain ⟨s, fp', hrun, hrest, -⟩ := input_faithful (fun _ => 1) [97, 10, 98] (by decide) _ hfits
  exact ⟨s, fp', hrun, hrest⟩

/-- `fgets` loses the byte behind those it has room for: three bytes are read to the end of the
file, and two delivered. -/
theorem fgets_drops_byte :
    Outcome.value? ((do
      let s ← getAll (fun _ => 1) [.fgets 2 (by decide), .fgets 2 (by decide)]
      let fp ← read
      return (s, fp.has fEof) : Prog Fault File (List UInt8 × Bool))
        (newFile fRdonly [97, 98, 99])) =
    some ([97, 99], true) := by
  decide +kernel

end Cosiris.Stdio
