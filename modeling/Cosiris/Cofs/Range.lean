import Cosiris.Cofs.Contents

/-!
# The range of a read or a write

`cofs_read` and `cofs_write` for every offset and size of 32 bits. The end of the range is a
sum of 32 bits and may wrap: a read past the end of the file or a write past what `block_map`
can address is then not stopped, and goes on until `block_map` panics. The limit of
`cofs_write` is less than what `block_map` can address.
-/

namespace Cosiris.Cofs

open Function Prog

/-- What `block_map` can address, in bytes. -/
def mapLimit : ℕ := (6 + 128 + 16384) * 512

/-! ### Past what `block_map` can address -/

theorem wp_blockMap_out {f : ℕ} (hf : 16518 ≤ f) {Q : ℕ → Open → Prop} {E : Halt → Open → Prop}
    {o : Open} :
    wp (blockMap f) Q E o = E (.panic "block_map out of range\n") o := by
  unfold blockMap
  rw [if_neg (by omega), if_neg (by omega), if_neg (by omega)]
  rfl

/-- A loop that is to read past what `block_map` can address never returns. -/
theorem readLoop_never {n offset rem : ℕ} {o : Open} (hn : rem ≤ n) (ho : offset ≤ mapLimit)
    (hb : mapLimit < offset + rem) :
    wp (readLoop n offset rem) (fun _ _ => False) (fun _ _ => True) o := by
  unfold mapLimit at ho hb
  induction n generalizing offset rem o with
  | zero => omega
  | succ n ih =>
    rw [readLoop, if_neg (by omega), wp_bind]
    by_cases hend : 16518 ≤ offset / 512
    · rw [wp_blockMap_out hend]
      trivial
    · refine wp_of_forall (fun b o' => ?_) fun _ _ => trivial
      simp only [wp_bind, wp_onDev, wp_getHdBuf]
      split_ifs
      simp only [wp_putHdBuf, wp_pure]
      exact ih (by omega) (by omega) (by omega)

/-- A loop that is to write past what `block_map` can address never returns. -/
theorem writeLoop_never {n offset : ℕ} {buffer : List UInt8} {o : Open} (hn : buffer.length ≤ n)
    (ho : offset ≤ mapLimit) (hb : mapLimit < offset + buffer.length) :
    wp (writeLoop n offset buffer) (fun _ _ => False) (fun _ _ => True) o := by
  unfold mapLimit at ho hb
  induction n generalizing offset buffer o with
  | zero => omega
  | succ n ih =>
    have hne : buffer ≠ [] := by
      rintro rfl
      rw [List.length_nil] at hb
      omega
    rw [writeLoop, if_neg hne, wp_bind]
    by_cases hend : 16518 ≤ offset / 512
    · rw [wp_blockMap_out hend]
      trivial
    · refine wp_of_forall (fun b o' => ?_) fun _ _ => trivial
      simp only [wp_bind, wp_onDev, wp_getHdBuf]
      split_ifs
      simp only [wp_setBuf, wp_putHdBuf]
      exact ih (by rw [List.length_drop]; omega) (by omega) (by rw [List.length_drop]; omega)

/-! ### Reading -/

/-- `cofs_read` returns the number of bytes of its range that the file has, with these bytes, and
changes nothing. -/
def ReadRight (s : Fs) (i offset n : ℕ) : Prop :=
  onNode i (cofsRead offset n) s =
    .ok (if offset > (s.node i).size then 0 else min n ((s.node i).size - offset),
      ((contents s.dev.disk (s.node i).addrs (s.node i).size).drop offset).take n) s

section

variable {s : Fs} {i offset : ℕ} (hc : Consistent s) (hl : s.Loaded i)

include hc hl

/-- `cofs_read` is right exactly when the end of its range does not wrap to a place in the file. -/
theorem Consistent.readRight_iff {n : ℕ} (ho : offset < 2 ^ 32) (hn : n < 2 ^ 32) :
    ReadRight s i offset n ↔
    (offset ≤ (s.node i).size → 2 ^ 32 ≤ offset + n → (s.node i).size < offset + n - 2 ^ 32) := by
  have hsize := (hc.filled_node hl).1
  have hmin : (if offset > (s.node i).size then 0 else min n ((s.node i).size - offset)) =
      min n ((s.node i).size - offset) := by
    split_ifs <;> omega
  unfold ReadRight
  rw [hmin]
  constructor
  · intro hrun hle hwrap
    by_contra hin
    -- The range is not cut: the loop is to read more than two gigabytes.
    have hnever : wp (onNode i (cofsRead offset n)) (fun _ _ => False) (fun _ _ => True) s := by
      rw [wp_onNode]
      simp only [cofsRead, wp_bind, wp_read, wp_ite, wp_pure]
      rw [if_neg (by omega), if_neg (by omega)]
      exact readLoop_never (Nat.le_refl _) (by unfold mapLimit; omega) (by unfold mapLimit; omega)
    exact hnever.ok hrun
  · intro h
    apply hc.read_of_cut hl
    intro hle
    have := h hle
    by_cases hwrap : 2 ^ 32 ≤ offset + n
    · rw [if_pos (by omega)]
      omega
    · split_ifs <;> omega

end

/-! ### Writing -/

/-- `cofs_write` returns `0` and changes nothing when its range starts past the end of the file or
ends past what `block_map` can address. Otherwise, with enough free blocks, it writes its whole
buffer; without them it may halt, but not because `block_map` is given a block out of range. -/
def WriteRight (s : Fs) (i offset : ℕ) (buf : List UInt8) : Prop :=
  if (s.node i).size < offset ∨ mapLimit < offset + buf.length then
    onNode i (cofsWrite offset buf) s =
    .ok 0 s
  else wp (onNode i (cofsWrite offset buf))
    (fun n s' => Room s.dev s.table i (Spans offset buf.length) → n = buf.length ∧
      (s'.node i).size = max (s.node i).size (offset + buf.length) ∧
      contents s'.dev.disk (s'.node i).addrs (s'.node i).size =
        overlay (contents s.dev.disk (s.node i).addrs (s.node i).size) offset buf)
    (fun e _ => ¬ Room s.dev s.table i (Spans offset buf.length) ∧
      e ≠ .panic "block_map out of range\n") s

theorem onNode_cofsWrite_refused {s : Fs} {i offset : ℕ} {buf : List UInt8}
    (h : (s.node i).size < offset ∨ maxFileSize < (offset + buf.length) % 2 ^ 32) :
    onNode i (cofsWrite offset buf) s = .ok 0 s := by
  have hwp : wp (onNode i (cofsWrite offset buf)) (fun n s' => n = 0 ∧ s' = s)
    (fun _ _ => False) s := by
    rw [wp_onNode]
    simp only [cofsWrite, wp_bind, wp_read, wp_ite, wp_pure, Fs.put_self]
    rcases h with h | h
    · rw [if_pos h]
      trivial
    · rw [if_pos h, ite_self]
      trivial
  obtain ⟨n, s', hrun, rfl, rfl⟩ := hwp.returns
  exact hrun

theorem overlay_nil (old : List UInt8) (offset : ℕ) : overlay old offset [] = old := by
  simp [overlay]

section

variable {s : Fs} {i offset : ℕ} (hc : Consistent s) (hl : s.Loaded i)

include hc hl

/-- A write within the limit is right. -/
theorem Consistent.writeRight_of_le {buf : List UInt8} (ho : offset ≤ (s.node i).size)
    (hb : offset + buf.length ≤ maxFileSize) : WriteRight s i offset buf := by
  unfold WriteRight mapLimit
  have hlim : maxFileSize = 8388742 := rfl
  rw [if_neg (by omega)]
  by_cases hroom : Room s.dev s.table i (Spans offset buf.length)
  · refine (hc.write_spec hl ho hb hroom).mono (fun n s' h => ?_) fun _ _ h => h.elim
    obtain ⟨hn, hsize, -, -, hcont, -⟩ := h
    exact fun _ => ⟨hn, hsize, hcont⟩
  · obtain ⟨hino, hfit, hlt⟩ := hc.node i hl
    rw [wp_onNode]
    refine (cofsWrite_spec (o := ⟨s.dev, s.node i⟩) (i := i) hc.sound
      (Fs.table_of_loaded hl hfit hlt) hino hlt hc.held
      ho hb).mono (fun _ _ _ h => absurd h hroom) fun e o' he => ?_
    obtain ⟨rfl, -, -⟩ := he
    exact ⟨hroom, by decide⟩

/-- `cofs_write` is right exactly when the end of its range does not wrap to a place below its
limit, and is not between this limit and what `block_map` can address. -/
theorem Consistent.writeRight_iff {buf : List UInt8} (hn : buf.length < 2 ^ 32) :
    WriteRight s i offset buf ↔ (offset ≤ (s.node i).size →
      (mapLimit < offset + buf.length → maxFileSize < (offset + buf.length) % 2 ^ 32) ∧
      (offset + buf.length ≤ mapLimit → buf ≠ [] → Room s.dev s.table i (Spans offset buf.length) →
        offset + buf.length ≤ maxFileSize)) := by
  have hsize := (hc.filled_node hl).1
  have hlim : maxFileSize = 8388742 := rfl
  have hmap : mapLimit = 8457216 := rfl
  by_cases hpast : (s.node i).size < offset
  · refine iff_of_true ?_ fun h => absurd h (by omega)
    unfold WriteRight
    rw [if_pos (.inl hpast)]
    exact onNode_cofsWrite_refused (.inl hpast)
  by_cases hle : offset + buf.length ≤ maxFileSize
  · exact iff_of_true (hc.writeRight_of_le hl (by omega) hle) fun _ => ⟨by omega, fun _ _ _ => hle⟩
  by_cases hout : mapLimit < offset + buf.length
  · unfold WriteRight
    rw [if_pos (.inr hout)]
    constructor
    · intro hrun _
      refine ⟨fun _ => ?_, fun h => absurd h (by omega)⟩
      by_contra hin
      have hnever :
        wp (onNode i (cofsWrite offset buf)) (fun _ _ => False) (fun _ _ => True) s := by
        rw [wp_onNode]
        simp only [cofsWrite, wp_bind, wp_read, wp_ite, wp_pure]
        rw [if_neg (by omega), if_neg hin]
        exact (writeLoop_never (Nat.le_refl _) (by omega) hout).mono
          (fun _ _ h => h.elim) fun _ _ h => h
      exact hnever.ok hrun
    · intro h
      exact onNode_cofsWrite_refused (.inr ((h (by omega)).1 hout))
  · have hrun : onNode i (cofsWrite offset buf) s = .ok 0 s :=
      onNode_cofsWrite_refused (.inr (by rw [Nat.mod_eq_of_lt (by omega)]; omega))
    unfold WriteRight
    rw [if_neg (by omega), wp_of_eq hrun]
    constructor
    · intro h _
      refine ⟨fun h' => absurd h' hout, fun _ hne hroom => ?_⟩
      have hzero := (h hroom).1
      exact absurd (List.length_eq_zero_iff.mp hzero.symm) hne
    · intro h hroom
      have hnil : buf = [] := by
        by_contra hne
        exact hle ((h (by omega)).2 (by omega) hne hroom)
      subst hnil
      rw [overlay_nil]
      exact ⟨rfl, by simp; omega, rfl⟩

/-- **Reads and writes are right exactly** when the end of the range, as a number of 32 bits, is
on the side of the end of the file, or of the limit, where the end of the range is; and no write
ends between the limit of `cofs_write` and what `block_map` can address. -/
theorem ranges_right_iff (ho : offset < 2 ^ 32) {n : ℕ} (hn : n < 2 ^ 32) {buf : List UInt8}
    (hbuf : buf.length < 2 ^ 32) :
    (ReadRight s i offset n ↔
      (offset ≤ (s.node i).size → 2 ^ 32 ≤ offset + n → (s.node i).size < offset + n - 2 ^ 32)) ∧
    (WriteRight s i offset buf ↔ (offset ≤ (s.node i).size →
      (mapLimit < offset + buf.length → maxFileSize < (offset + buf.length) % 2 ^ 32) ∧
      (offset + buf.length ≤ mapLimit → buf ≠ [] → Room s.dev s.table i (Spans offset buf.length) →
        offset + buf.length ≤ maxFileSize))) :=
  ⟨hc.readRight_iff hl ho hn, hc.writeRight_iff hl hbuf⟩

end

/-- A file of one byte. -/
def oneByte : Fs := (onNode 1 (cofsWrite 0 [65]) (tiny (emptyNode 0x8000))).state

theorem oneByte_consistent : Consistent oneByte ∧ oneByte.Loaded 1 ∧ (oneByte.node 1).size = 1 := by
  have h₁ : 0x8000 &&& 0xF000 = 0x8000 := by decide
  have h₀ : 0x8000 ≠ 0 := by decide
  have hb : 0 + [(65 : UInt8)].length ≤ maxFileSize := by
    unfold maxFileSize
    simp
  obtain ⟨n, s', hrun, -, hsize, -, hl, -, -, hc⟩ := ((tiny_consistent h₁ h₀).write_spec
    ((tiny_loaded_iff h₀ 1).mpr rfl) (Nat.zero_le _) hb tiny_room).returns
  have hs : oneByte = s' := by
    unfold oneByte
    rw [hrun]
    rfl
  rw [hs]
  exact ⟨hc, hl, hsize⟩

/-- Ten bytes are read from the file, and two are written to it. -/
theorem ranges_right_oneByte : ReadRight oneByte 1 0 10 ∧ WriteRight oneByte 1 1 [66, 67] := by
  obtain ⟨hc, hl, hsize⟩ := oneByte_consistent
  have hten : 10 < 2 ^ 32 := by decide
  have htwo : ([66, 67] : List UInt8).length < 2 ^ 32 := by decide
  have hread := (ranges_right_iff hc hl (Nat.two_pow_pos 32) hten htwo).1
  have hwrite := (ranges_right_iff hc hl (show 1 < 2 ^ 32 by decide) hten htwo).2
  refine ⟨hread.mpr fun _ h => absurd h (by decide),
    hwrite.mpr fun _ => ⟨fun h => ?_, fun _ _ _ => by decide⟩⟩
  exact absurd h (by decide)

theorem oneByte_wraps {buf : List UInt8} (hlen : buf.length = 2 ^ 32 - 1) :
    ¬ WriteRight oneByte 1 1 buf := by
  obtain ⟨hc, hl, hsize⟩ := oneByte_consistent
  have hlim : maxFileSize = 8388742 := rfl
  have hmap : mapLimit = 8457216 := rfl
  rw [hc.writeRight_iff hl (by omega), hsize, hlen]
  intro h
  exact absurd ((h (by omega)).1 (by omega)) (by omega)

/-- **A range that wraps.** From offset 1 of a file of one byte, a read or a write of `2 ^ 32 - 1`
bytes is not refused. -/
theorem range_wraps : Consistent oneByte ∧ oneByte.Loaded 1 ∧ ¬ ReadRight oneByte 1 1 (2 ^ 32 - 1) ∧
    ¬ WriteRight oneByte 1 1 (List.replicate (2 ^ 32 - 1) 0) := by
  obtain ⟨hc, hl, hsize⟩ := oneByte_consistent
  refine ⟨hc, hl, ?_, oneByte_wraps List.length_replicate⟩
  rw [hc.readRight_iff hl (by omega) (by omega), hsize]
  intro h
  exact absurd (h (by omega) (by omega)) (by omega)

end Cosiris.Cofs
