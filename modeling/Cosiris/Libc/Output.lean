import Cosiris.Libc.File

/-!
# Output through a stream

What a stream that is open for writing has been given is what `write` was given and then the bytes
between `tail` and `head`. `_flush_buf` writes these in one piece, from the cell of `tail` on,
though they may go round the end of the buffer; it takes the 0 that `write` returns for 0 bytes
for an error; and `fputs` takes a `char` below 0 for one. -/

namespace Cosiris.Stdio

open Function Prog

/-- The bytes between `tail` and `head`. -/
def File.pending (fp : File) : List UInt8 := Ring.segment fp.buf fp.size fp.tail (fp.head - fp.tail)

/-- The stream is open for writing, buffered or not. -/
def File.Writable (fp : File) : Prop :=
  0 < fp.size ∧ (fp.flags = fWronly ∨ fp.flags = fWronly ||| fUnbuf ∧ fp.size = 1)

/-- What was given to `write` and what is pending is `out`. -/
structure File.Holds (fp : File) (out : List UInt8) : Prop where
  writable : fp.Writable
  tail_le : fp.tail ≤ fp.head
  head_lt : fp.head < 2 ^ 31
  used_le : fp.head - fp.tail ≤ fp.size
  out : fp.written ++ fp.pending = out

/-- There is room for `n` more bytes: they do not overflow `head`, and if they fill the buffer
then it is filled from its first cell on. -/
def File.Room (fp : File) (n : ℕ) : Prop :=
  fp.head + n < 2 ^ 31 ∧ (fp.head - fp.tail + n < fp.size ∨ fp.tail % fp.size = 0)

section

variable {fp fp' : File} {out : List UInt8} {c : UInt8}

theorem File.Writable.flags_err (h : fp.Writable) : fp.has (fEof ||| fErr ||| fRdonly) = false := by
  unfold File.has
  rcases h.2 with h | ⟨h, -⟩ <;> rw [h] <;> decide

theorem File.Writable.size_of_unbuf (h : fp.Writable) (hu : fp.has fUnbuf = true) :
    fp.size = 1 := by
  rcases h.2 with hf | ⟨-, hs⟩
  · unfold File.has at hu
    rw [hf] at hu
    exact absurd hu (by decide)
  · exact hs

/-- A byte is put behind those that are pending. -/
theorem wp_putByte (h : fp.Holds out) (hlt : fp.head - fp.tail < fp.size)
    (hmax : fp.head + 1 < 2 ^ 31) :
    wp (putByte c) (fun _ fp' => fp'.Holds (out ++ [c]) ∧ fp'.head = fp.head + 1 ∧
      fp'.tail = fp.tail ∧
      fp'.size = fp.size)
      (fun _ _ => False) fp := by
  have hle := h.tail_le
  have hmod : fp.head % fp.size < fp.size := Nat.mod_lt _ h.writable.1
  simp only [putByte, addHead, store, wp_bind, wp_read, wp_ite, wp_modify, wp_halt]
  rw [if_pos hmax, if_pos hmod]
  refine ⟨⟨h.writable, by show fp.tail ≤ fp.head + 1; omega,
    hmax, by show fp.head + 1 - fp.tail ≤ fp.size; omega, ?_⟩,
    trivial, trivial, trivial⟩
  show fp.written ++
    Ring.segment (update fp.buf (fp.head % fp.size) c) fp.size fp.tail (fp.head + 1 - fp.tail) = _
  have hcell : fp.head = fp.tail + (fp.head - fp.tail) := by omega
  rw [show fp.head + 1 - fp.tail = fp.head - fp.tail + 1 by omega]
  nth_rewrite 1 [hcell]
  rw [Ring.segment_push fp.buf c hlt, ← List.append_assoc]
  show fp.written ++ fp.pending ++ [c] = _
  rw [h.out]

/-- The pending bytes are written, if there are any and they do not go round the end of the
buffer. -/
theorem wp_flushBuf (h : fp.Holds out) (hpos : fp.tail < fp.head)
    (hfit : fp.tail % fp.size + (fp.head - fp.tail) ≤ fp.size) :
    wp flushBuf (fun r fp' => 0 < r ∧ fp'.Holds out ∧ fp'.head = fp.head ∧ fp'.tail = fp.head ∧
      fp'.size = fp.size)
      (fun _ _ => False) fp := by
  have hlt := h.head_lt
  have hused := h.used_le
  have hsize : (if fp.head - fp.tail ≠ 0 ∧ fp.has fUnbuf then 1 else fp.head - fp.tail) =
    fp.head - fp.tail := by
    split_ifs with hu
    · have := h.writable.size_of_unbuf hu.2
      omega
    · rfl
  rw [flushBuf, wp_bind, wp_read, h.writable.flags_err]
  simp only [Bool.false_eq_true, if_false, write, addTail, wp_bind, wp_read, wp_ite, wp_modify,
    wp_pure, wp_halt]
  rw [hsize, if_pos hfit, if_neg (by omega), Int.toNat_natCast,
    if_pos (by show fp.tail + (fp.head - fp.tail) < _; omega)]
  have htail : fp.tail + (fp.head - fp.tail) = fp.head := by omega
  refine ⟨by omega, ⟨h.writable, ?_, hlt, ?_, ?_⟩, trivial, htail, trivial⟩
  · show fp.tail + (fp.head - fp.tail) ≤ fp.head
    omega
  · show fp.head - (fp.tail + (fp.head - fp.tail)) ≤ fp.size
    omega
  · show fp.written ++
      (List.range (fp.head - fp.tail)).map (fun i => fp.buf (fp.tail % fp.size + i)) ++
      Ring.segment fp.buf fp.size (fp.tail + (fp.head - fp.tail))
        (fp.head - (fp.tail + (fp.head - fp.tail))) = out
    rw [← Ring.segment_linear fp.buf hfit, htail, Nat.sub_self, Ring.segment_zero, List.append_nil]
    exact h.out

/-- What one more byte leaves: the byte is held, and there is room for one less. -/
def File.Took (fp : File) (out : List UInt8) (c : UInt8) (fp' : File) : Prop :=
  fp'.Holds (out ++ [c]) ∧ fp'.head - fp'.tail < fp'.size ∧ ∀ n, fp.Room (n + 1) → fp'.Room n

/-- A byte that fills the buffer is written with those before it. -/
theorem wp_flush_full (hroom : fp.Room 1) (h : fp'.Holds (out ++ [c]))
    (hhead : fp'.head = fp.head + 1) (htail : fp'.tail = fp.tail) (hsize : fp'.size = fp.size)
    (hfull : fp'.full) :
    wp flushBuf (fun r fp'' => 0 < r ∧ fp.Took out c fp'') (fun _ _ => False) fp' := by
  have hused := h.used_le
  have hle := h.tail_le
  have hpos := h.writable.1
  unfold File.full at hfull
  have hzero : fp.tail % fp.size = 0 := by
    refine hroom.2.resolve_left fun hlt => ?_
    rw [hhead, htail, hsize] at hfull
    omega
  have hone : fp'.head = fp.tail + fp.size := by
    rw [htail, hsize] at *
    omega
  refine (wp_flushBuf h (by omega) (by rw [htail, hsize, hzero]; omega)).mono ?_ fun _ _ => id
  rintro r fp'' ⟨hr, hh, hhead', htail', hsize'⟩
  refine ⟨hr, hh, by rw [hhead', htail', hsize']; omega, fun n hn => ⟨?_, Or.inr ?_⟩⟩
  · have := hn.1
    rw [hhead', hhead]
    omega
  · rw [htail', hsize', hsize, hone, Nat.add_mod_right, hzero]

/-- A byte that does not fill the buffer stays there. -/
theorem took_of_not_full (h : fp'.Holds (out ++ [c])) (hhead : fp'.head = fp.head + 1)
    (htail : fp'.tail = fp.tail) (hsize : fp'.size = fp.size) (hle : fp.tail ≤ fp.head)
    (hfull : ¬fp'.full) : fp.Took out c fp' := by
  unfold File.full at hfull
  refine ⟨h, by omega, fun n hn => ?_⟩
  unfold File.Room at *
  rw [hhead, htail, hsize]
  rw [show fp.head + 1 - fp.tail + n =
    fp.head - fp.tail + (n + 1) by omega, show fp.head + 1 + n = fp.head + (n + 1) by omega]
  exact hn

theorem wp_fputc (h : fp.Holds out) (hlt : fp.head - fp.tail < fp.size)
    (hroom : fp.Room 1) (c : ℤ) :
    wp (fputc c) (fun r fp' => r = c ∧ fp.Took out (toChar c) fp') (fun _ _ => False) fp := by
  rw [fputc, wp_bind]
  refine (wp_putByte h hlt hroom.1).mono (fun _ fp' hp => ?_) fun _ _ => id
  obtain ⟨hh, hhead, htail, hsize⟩ := hp
  rw [wp_bind, wp_read, wp_ite]
  split_ifs with hc
  · have hfull : fp'.full := by
      refine hc.elim id fun hu => ?_
      have hone := hh.writable.size_of_unbuf hu
      have hle := h.tail_le
      unfold File.full
      omega
    rw [wp_bind]
    refine (wp_flush_full hroom hh hhead htail hsize hfull).mono (fun r fp'' hr => ?_) fun _ _ => id
    rw [if_neg (by omega), wp_pure]
    exact ⟨rfl, hr.2⟩
  · exact ⟨rfl, took_of_not_full hh hhead htail hsize h.tail_le fun hf => hc (Or.inl hf)⟩

theorem File.Room.one {n : ℕ} (h : fp.Room (n + 1)) : fp.Room 1 :=
  ⟨by have := h.1; omega, h.2.imp_left fun hlt => by omega⟩

/-- The stream holds `out` and is ready for more bytes. -/
def File.Ready (fp : File) (out : List UInt8) : Prop := fp.Holds out ∧ fp.head - fp.tail < fp.size

/-- The bytes of a string. -/
def cstring (s : List UInt8) : List UInt8 := s.takeWhile (· ≠ 0)

theorem cstring_cons_of_ne {s : List UInt8} (h : c ≠ 0) : cstring (c :: s) = c :: cstring s := by
  simp [cstring, h]

/-- No byte of a string but the last is a `char` below 0. -/
def Plain (s : List UInt8) : Prop := ∀ c ∈ s.dropLast, c < 128

theorem ofChar_nonneg (h : c < 128) : 0 ≤ ofChar c := by
  have hlt : c.toNat < 128 := h
  have hc : c.toBitVec.toNat = c.toNat := rfl
  unfold ofChar
  rw [BitVec.toInt_eq_toNat_cond, hc, if_pos (by omega)]
  omega

/-- A string is put byte by byte, up to one that `fputc` returns as a number below 0. -/
theorem wp_fputs {s : List UInt8} (h : fp.Ready out) (hroom : fp.Room (cstring s).length)
    (hp : Plain (cstring s)) :
    wp (fputs s) (fun _ fp' => fp'.Ready (out ++ cstring s)) (fun _ _ => False) fp := by
  induction s generalizing fp out with
  | nil =>
    rw [fputs, wp_pure]
    show fp.Ready (out ++ [])
    rwa [List.append_nil]
  | cons c s ih =>
    by_cases hc : c = 0
    · subst hc
      rw [fputs, if_pos rfl, wp_pure]
      show fp.Ready (out ++ [])
      rwa [List.append_nil]
    · rw [cstring_cons_of_ne hc] at hroom hp ⊢
      rw [fputs, if_neg hc, wp_bind]
      refine (wp_fputc h.1 h.2 hroom.one (ofChar c)).mono (fun r fp' hr => ?_) fun _ _ => id
      obtain ⟨rfl, hh, hlt, hnext⟩ := hr
      rw [toChar_ofChar] at hh
      rw [wp_ite]
      cases hs : cstring s with
      | nil =>
        -- The last byte is put, whatever `fputc` returns.
        have hlast :=
          ih (show fp'.Ready (out ++ [c]) from ⟨hh, hlt⟩)
            (by rw [hs]; exact hnext 0 (by rwa [hs] at hroom))
          (by rw [hs]; intro d hd; cases hd)
        rw [hs, List.append_nil] at hlast
        split_ifs
        · exact ⟨hh, hlt⟩
        · exact hlast
      | cons d t =>
        rw [hs] at hp hroom
        have hpos : 0 ≤ ofChar c := ofChar_nonneg (hp c (by simp))
        rw [if_neg (by omega)]
        have hrest :=
          ih (show fp'.Ready (out ++ [c]) from ⟨hh, hlt⟩) (by rw [hs]; exact hnext _ hroom)
          (by rw [hs]; exact fun e he => hp e (List.mem_cons_of_mem _ he))
        rw [hs, List.append_assoc] at hrest
        exact hrest

theorem wp_fwriteFrom {size i j : ℕ} {p : List UInt8} (h : fp.Ready out)
    (hroom : fp.Room p.length) :
    wp (fwriteFrom size i j p) (fun _ fp' => fp'.Ready (out ++ p)) (fun _ _ => False) fp := by
  induction p generalizing fp out i j with
  | nil =>
    rw [fwriteFrom, wp_pure, List.append_nil]
    exact h
  | cons c p ih =>
    have happ : out ++ c :: p = out ++ [c] ++ p := by rw [List.append_assoc, List.singleton_append]
    rw [fwriteFrom, wp_bind]
    refine (wp_putByte h.1 h.2 hroom.one.1).mono (fun _ fp' hput => ?_) fun _ _ => id
    obtain ⟨hh, hhead, htail, hsize⟩ := hput
    rw [wp_bind, flushFull, wp_bind, wp_read, wp_ite]
    by_cases hfull : fp'.full
    · rw [if_pos hfull]
      refine (wp_flush_full hroom.one hh hhead htail hsize hfull).mono
        (fun r fp'' hr => ?_) fun _ _ => id
      obtain ⟨hr, hh', hlt, hnext⟩ := hr
      rw [if_neg (by omega), happ]
      exact ih ⟨hh', hlt⟩ (hnext _ hroom)
    · obtain ⟨-, hlt, hnext⟩ := took_of_not_full hh hhead htail hsize h.1.tail_le hfull
      rw [if_neg hfull, wp_pure, if_neg (by omega), happ]
      exact ih ⟨hh, hlt⟩ (hnext _ hroom)

theorem wp_fflush (h : fp.Ready out) (hpos : fp.tail < fp.head)
    (hfit : fp.tail % fp.size + (fp.head - fp.tail) ≤ fp.size) :
    wp fflush (fun r fp' => r = 0 ∧ fp'.Ready out ∧ fp'.pending = []) (fun _ _ => False) fp := by
  have hro : fp.has oRdonly = false := by simp [File.has, oRdonly]
  rw [fflush, wp_bind, wp_read, hro]
  simp only [Bool.false_eq_true, if_false, wp_bind]
  refine (wp_flushBuf h.1 hpos hfit).mono (fun r fp' hr => ?_) fun _ _ => id
  obtain ⟨hr, hh, hhead, htail, hsize⟩ := hr
  have hpos' := h.1.writable.1
  rw [if_neg (by omega), wp_pure]
  refine ⟨rfl, ⟨hh, by rw [hhead, htail, hsize]; omega⟩, ?_⟩
  unfold File.pending
  rw [hhead, htail, Nat.sub_self, Ring.segment_zero]

/-! ### Sequences of calls -/

/-- A call on a stream that is open for writing. -/
inductive Put where
  | fputc (c : ℤ)
  | fputs (s : List UInt8)
  /-- The object at `p` has `nmemb` members of `size` bytes. -/
  | fwrite (p : List UInt8) (size nmemb : ℕ) (h : p.length = nmemb * size)
  | fflush

/-- The bytes that the caller passes. -/
def Put.bytes : Put → List UInt8
  | fputc c => [toChar c]
  | fputs s => cstring s
  | fwrite p _ _ _ => p
  | fflush => []

/-- A run of the call. -/
def Put.exec : Put → Prog Fault File Unit
  | fputc c => do let _ ← Stdio.fputc c
  | fputs s => do let _ ← Stdio.fputs s
  | fwrite p size nmemb _ => do let _ ← Stdio.fwrite p size nmemb
  | fflush => do let _ ← Stdio.fflush

/-- The calls, one after the other. -/
def putAll : List Put → Prog Fault File Unit
  | [] => pure ()
  | c :: cs => do
    c.exec
    putAll cs

/-- There is room for what a call passes, a string that is passed is plain, and `fflush` is called
when there are bytes pending, which do not go round the end of the buffer. -/
def Put.Fits (fp : File) : Put → Prop
  | fputs s => fp.Room (cstring s).length ∧ Plain (cstring s)
  | fflush => fp.tail < fp.head ∧ fp.tail % fp.size + (fp.head - fp.tail) ≤ fp.size
  | c => fp.Room c.bytes.length

/-- Each call fits where it is made. -/
def Fits : File → List Put → Prop
  | _, [] => True
  | fp, c :: cs => c.Fits fp ∧ ∀ fp', c.exec fp = .ok () fp' → Fits fp' cs

theorem Put.exec_ready {c : Put} (h : fp.Ready out) (hc : c.Fits fp) :
    wp c.exec (fun _ fp' => fp'.Ready (out ++ c.bytes) ∧ (c = .fflush → fp'.pending = []))
      (fun _ _ => False) fp := by
  cases c with
  | fputc c =>
    rw [Put.exec, wp_bind]
    exact (wp_fputc h.1 h.2 hc c).mono
      (fun _ _ hr => ⟨⟨hr.2.1, hr.2.2.1⟩, by intro he; cases he⟩) fun _ _ => id
  | fputs s =>
    rw [Put.exec, wp_bind]
    exact (wp_fputs h hc.1 hc.2).mono (fun _ _ hr => ⟨hr, by intro he; cases he⟩) fun _ _ => id
  | fwrite p size nmemb hp =>
    have hroom : fp.Room p.length := hc
    have hall : nmemb * size % 2 ^ 32 = p.length := by
      have := hroom.1
      rw [← hp]
      exact Nat.mod_eq_of_lt (by omega)
    rw [Put.exec, wp_bind, Stdio.fwrite, hall, List.take_length]
    exact (wp_fwriteFrom h hroom).mono (fun _ _ hr => ⟨hr, by intro he; cases he⟩) fun _ _ => id
  | fflush =>
    rw [Put.exec, wp_bind]
    refine (wp_fflush h hc.1 hc.2).mono (fun _ fp' hr => ⟨?_, fun _ => hr.2.2⟩) fun _ _ => id
    show fp'.Ready (out ++ [])
    rw [List.append_nil]
    exact hr.2.1

theorem putAll_ready {cs : List Put} (h : fp.Ready out) (hc : Fits fp cs) :
    ∃ fp', putAll cs fp = .ok () fp' ∧ fp'.Ready (out ++ cs.flatMap Put.bytes) ∧
      (cs.getLast? = some .fflush → fp'.pending = []) := by
  induction cs generalizing fp out with
  | nil => exact ⟨fp, rfl, by rwa [List.flatMap_nil, List.append_nil], by intro he; cases he⟩
  | cons c cs ih =>
    obtain ⟨⟨⟩, fp₁, hexec, hready, hlast₁⟩ := (Put.exec_ready h hc.1).returns
    obtain ⟨fp₂, hrun, hready₂, hlast₂⟩ := ih hready (hc.2 fp₁ hexec)
    refine ⟨fp₂, ?_, by rwa [List.flatMap_cons, ← List.append_assoc], fun hl => ?_⟩
    · show Prog.bind c.exec (fun _ => putAll cs) fp = _
      rw [Prog.bind, hexec]
      exact hrun
    · cases cs with
      | nil =>
        cases hrun
        exact hlast₁ (by simpa using hl)
      | cons d ds => exact hlast₂ (by simpa using hl)

end

/-- A stream just opened for writing, buffered or not. -/
def Opened (fp : File) : Prop := fp = newFile fWronly [] ∨ fp = newFile (fWronly ||| fUnbuf) []

theorem Opened.ready {fp : File} (h : Opened fp) : fp.Ready [] := by
  rcases h with rfl | rfl
  · exact ⟨⟨⟨by decide, Or.inl rfl⟩, Nat.le_refl 0, by decide, Nat.zero_le _, rfl⟩, by decide⟩
  · exact ⟨⟨⟨by decide, Or.inr ⟨rfl, rfl⟩⟩, Nat.le_refl 0, by decide, Nat.zero_le _,
      rfl⟩, by decide⟩

/-- **Buffered output**: a sequence of calls that fit, on a stream just opened, reads and writes
only the cells of the buffer; what `write` was given, and then what is pending, is all that the
calls passed; the stream is not in the error state; and nothing is pending if the last call is
`fflush`. -/
theorem output_faithful (fp : File) (cs : List Put) (hfp : Opened fp) (hcs : Fits fp cs) :
    ∃ fp', putAll cs fp = .ok () fp' ∧ fp'.written ++ fp'.pending = cs.flatMap Put.bytes ∧
      fp'.has fErr = false ∧
      (cs.getLast? = some .fflush → fp'.pending = []) := by
  obtain ⟨fp', hrun, hready, hlast⟩ := putAll_ready hfp.ready hcs
  refine ⟨fp', hrun, hready.1.out, ?_, hlast⟩
  unfold File.has
  rcases hready.1.writable.2 with hf | ⟨hf, -⟩ <;> rw [hf] <;> decide

/-- A byte, two bytes and a flush fit a stream just opened, and the three bytes are written. -/
theorem output_faithful_three :
    ∃ fp', putAll [.fputc 97, .fwrite [98, 10] 1 2 rfl, .fflush] (newFile fWronly []) = .ok () fp' ∧
      fp'.written = [97, 98, 10] := by
  have hroom : ∀ n, n < 512 → (newFile fWronly []).Room n := fun n hn =>
    ⟨by show 0 + n < 2 ^ 31; omega, Or.inr rfl⟩
  have hfits : Fits (newFile fWronly []) [.fputc 97, .fwrite [98, 10] 1 2 rfl, .fflush] := by
    refine ⟨hroom 1 (by decide), fun fp₁ h₁ => ?_⟩
    cases h₁
    refine ⟨⟨by decide, Or.inr rfl⟩, fun fp₂ h₂ => ?_⟩
    cases h₂
    exact ⟨⟨by decide, by decide⟩, fun _ _ => trivial⟩
  obtain ⟨fp', hrun, hout, -, hlast⟩ := output_faithful _ _ (Or.inl rfl) hfits
  refine ⟨fp', hrun, ?_⟩
  rw [hlast rfl, List.append_nil] at hout
  exact hout

/-- A flush with nothing pending puts the stream into the error state. -/
theorem flush_empty_is_error :
    ∃ fp', putAll [.fputc 97, .fflush, .fflush] (newFile fWronly []) = .ok () fp' ∧
      fp'.has fErr = true :=
  ⟨_, rfl, by decide⟩

end Cosiris.Stdio
