import Cosiris.Cofs.Truncate

/-!
# The block past the end of a file

The last round of the loop of `cofs_truncate` is for file block `size / BLOCK_SIZE`. When the size
is a whole number of blocks and the loop has come to the indirect ones, that block has no address.
If the indirect block that would list it is still there, the round frees block `0`, which is the
boot block, and the call returns; if it has been freed by the rounds before, or was never there,
the boot block is freed twice, and the second time the kernel panics. -/

namespace Cosiris.Cofs

open Function Prog

variable {X : ℕ → Prop}

/-! ### A missing entry is freed -/

/-- From `d` to `d'` the bit of the boot block has been cleared. -/
structure Unboot (d d' : Dev) : Prop where
  superb : d'.superb = d.superb
  held : d'.held = d.held
  same : ∀ c, ¬ d.superb.InBitmap c → d'.disk c = d.disk c

section

variable {d : Dev} {A : ℕ → ℕ → ℕ} {i k : ℕ} {q : Place}

/-- An entry of an indirect block that is clear is freed: the block that it lists is the boot
block. -/
theorem freeEntry_missing (h : Sound X d A) (hh : d.held = []) (hq : addrAt d.disk (A i) q ≠ 0)
    (hw : word (d.disk (addrAt d.disk (A i) q)) k = 0) :
    wp (freeEntry (addrAt d.disk (A i) q) k) (fun _ d' => Unboot d d') (fun _ _ => False) d := by
  have hlayout := h.layout
  have hbits := hlayout.zero_lt_numBits
  have hnb := h.not_inBitmap hq
  have hdisk :
    update d.disk (addrAt d.disk (A i) q) (setWord (d.disk (addrAt d.disk (A i) q)) k 0) =
    d.disk := by
    unfold setWord
    rw [putLe_self hw, update_eq_self]
  simp only [freeEntry, wp_bind, wp_getHdBuf, wp_setBuf, wp_putHdBuf, hh,
    List.not_mem_nil, if_false, hw]
  rw [hdisk]
  have hnot : d.superb.bitmapBlock 0 ∉ [addrAt d.disk (A i) q] := by
    rw [List.mem_singleton]
    intro he
    exact hnb (he ▸ Superblock.inBitmap_bitmapBlock hbits)
  have hused : Dev.used ⟨d.superb, d.disk, [addrAt d.disk (A i) q], d.freed⟩ 0 = true :=
    h.metaUsed 0 (Nat.succ_pos _)
  refine (blockFree_spec
    (d := ⟨d.superb, d.disk, [addrAt d.disk (A i) q], d.freed⟩) hnot hbits).mono
    (fun _ d' hr => ?_) fun e d' hf => ?_
  · obtain ⟨-, hr⟩ := hr
    refine ⟨hr.superb, ?_, hr.same⟩
    show d'.held.erase _ = _
    rw [hr.held, hh]
    exact List.erase_cons_head _ _
  · rw [hused] at hf
    exact absurd hf.1 (by decide)

/-- An indirect block that lists a block has an entry that is not clear. -/
theorem scanBlock_tight {d' : Dev} (h : Sound X d A) (hh : d.held = []) (hu : Unboot d d')
    (hp : ¬ q.Leaf)
    (hq : addrAt d.disk (A i) q ≠ 0) (ht : Tight d.disk (A i)) {Q : ℕ → Dev → Prop}
    {E : Halt → Dev → Prop}
    (hQ : ∀ n, n ≠ 0 → Q n d') : wp (scanBlock (addrAt d.disk (A i) q)) Q E d' := by
  refine scanBlock_spec (hu.held.trans hh) fun n hn => hQ n fun h0 => ?_
  rw [hu.same _ (h.not_inBitmap hq)] at hn
  obtain ⟨r, hr, hr0⟩ := ht q hp (by simp) hq
  exact hr0 ((words_zero_iff hp hq).mp (hn.mp h0) r hr)

end

/-! ### The last round -/

section

variable {o : Open} {A : ℕ → ℕ → ℕ} {i f : ℕ} {q : Place}

/-- The round for a file block that is missing, while the indirect block that would list it is
there. -/
theorem truncateBlock_missing (h : Sound X o.dev A) (hA : A i = o.node.addrs) (hh : o.dev.held = [])
    (ht : Tight o.dev.disk o.node.addrs) (hlt : f < 16518) (hq : (Place.leafOf f).parent = some q)
    (hq0 : addrAt o.dev.disk o.node.addrs q ≠ 0)
    (hf : addrAt o.dev.disk o.node.addrs (Place.leafOf f) = 0) :
    wp (truncateBlock f) (fun _ o' => o'.node = o.node ∧ Unboot o.dev o'.dev)
      (fun _ _ => False) o := by
  have hword : word (o.dev.disk (addrAt o.dev.disk o.node.addrs q)) (Place.leafOf f).idx = 0 := by
    rwa [addrAt_of_parent_some hq, entry_of_ne hq0] at hf
  rw [← hA] at ht hq0 hword
  have hd : (⟨o.dev.superb, o.dev.disk, [], o.dev.freed⟩ : Dev) = o.dev := by rw [← hh]
  simp only [truncateBlock, wp_bind, wp_read, wp_ite, wp_onDev]
  unfold Place.leafOf at hq hword
  by_cases h6 : f < 6
  · rw [if_pos h6] at hq
    cases hq
  · rw [if_neg h6] at hq hword ⊢
    by_cases h134 : f < 134
    · rw [if_pos h134] at hq hword ⊢
      obtain rfl := Option.some.inj hq
      have e6 : addrAt o.dev.disk (A i) (.top 6) = o.node.addrs 6 := by rw [hA]; rfl
      have hidx : (Place.one (Fin.ofNat 128 (f - 6))).idx = f - 6 := by
        show (Fin.ofNat 128 (f - 6) : ℕ) = _
        rw [Fin.val_ofNat]
        omega
      rw [hidx] at hword
      rw [← e6]
      refine (freeEntry_missing h hh hq0 hword).mono (fun _ d₁ hu => ?_) fun _ _ => False.elim
      refine scanBlock_tight h hh hu (by simp [Place.Leaf]) hq0 ht fun n hn => ?_
      rw [if_neg hn]
      exact ⟨rfl, hu⟩
    · rw [if_neg h134] at hq hword ⊢
      obtain rfl := Option.some.inj hq
      have hq7 := addrAt_parent_ne_zero (p := .mid _) rfl hq0
      have e7 : addrAt o.dev.disk (A i) (.top 7) = o.node.addrs 7 := by rw [hA]; rfl
      have hmid : word (o.dev.disk (o.node.addrs 7)) ((f - 134) / 128) =
          addrAt o.dev.disk (A i) (.mid (Fin.ofNat 128 ((f - 134) / 128))) := by
        rw [addrAt_of_parent_some (p := .mid (Fin.ofNat 128 ((f - 134) / 128))) rfl,
          entry_of_ne hq7, e7]
        show _ = word _ (Fin.ofNat 128 ((f - 134) / 128) : ℕ)
        rw [Fin.val_ofNat, Nat.mod_eq_of_lt (by omega)]
      have hidx :
        (Place.two (Fin.ofNat 128 ((f - 134) / 128)) (Fin.ofNat 128 ((f - 134) % 128))).idx =
        (f - 134) % 128 := by
        show (Fin.ofNat 128 ((f - 134) % 128) : ℕ) = _
        rw [Fin.val_ofNat]
        omega
      rw [hidx] at hword
      rw [if_pos hlt]
      simp only [wp_getHdBuf, wp_putHdBuf, hh, List.not_mem_nil, if_false, List.erase_cons_head, hd,
        hmid]
      refine (freeEntry_missing h hh hq0 hword).mono (fun _ d₁ hu => ?_) fun _ _ => False.elim
      refine scanBlock_tight h hh hu (by simp [Place.Leaf]) hq0 ht fun n hn => ?_
      rw [if_neg hn, ← e7]
      refine scanBlock_tight h hh hu (by simp [Place.Leaf]) hq7 ht fun n hn => ?_
      rw [if_neg hn]
      exact ⟨rfl, hu⟩

end

/-! ### The contents -/

/-- Files are read from the blocks of data only. -/
theorem contents_of_data {d : Dev} {disk' : ℕ → Block} {A : ℕ → ℕ → ℕ} {i size : ℕ}
    (h : Sound X d A) (hf : Filled d.disk (A i) size)
    (hdata : ∀ b, d.superb.dataStart ≤ b → disk' b = d.disk b) :
    contents disk' (A i) size = contents d.disk (A i) size := by
  have haddr : ∀ p, addrAt disk' (A i) p = addrAt d.disk (A i) p :=
    addrAt_congr fun p _ hp => hdata _ (h.dataStart_le hp)
  refine getBytes_congr fun q hq => ?_
  rw [Nat.zero_add]
  unfold byteAt
  rw [haddr, hdata _ (h.dataStart_le (hf.2 q hq))]

/-- A file that has given up the blocks from the new length on. -/
theorem Cut.shaped {A : ℕ → ℕ → ℕ} {i length n : ℕ} {o o₁ : Open}
    (hc : Cut X A i (length / 512) n o o₁)
    (hs : Shaped o.dev.disk o.node.addrs o.node.size) (hle : length ≤ o.node.size)
    (hmod : length % 512 = 0)
    (hn : o.node.size ≤ length + n * 512) : Shaped o₁.dev.disk o₁.node.addrs length := by
  refine ⟨Nat.le_trans hle hs.le, hc.tight, fun f hf => ?_⟩
  rw [hc.leaves f hf]
  split_ifs with hcut
  · exact ⟨fun e => absurd rfl e, fun e => by omega⟩
  · rw [hs.leaves f hf]
    omega

/-- The bytes that are left. -/
theorem Cut.contents {A : ℕ → ℕ → ℕ} {i length n : ℕ} {o o₁ : Open}
    (hc : Cut X A i (length / 512) n o o₁)
    (hA : A i = o.node.addrs) (hs : Shaped o₁.dev.disk o₁.node.addrs length)
    (hle : length ≤ o.node.size) :
    contents o₁.dev.disk o₁.node.addrs length =
      (Cofs.contents o.dev.disk o.node.addrs o.node.size).take length := by
  have htake := drop_take_contents o.dev.disk o.node.addrs (show 0 + length ≤ o.node.size by omega)
  rw [List.drop_zero] at htake
  rw [htake]
  refine getBytes_congr fun q hq => ?_
  rw [Nat.zero_add]
  have hq0 := hs.filled.2 q hq
  have hblk := hc.shrink.leaf (Place.leafOf (q / 512)) Place.leaf_leafOf (by rwa [update_self])
  have hless := hc.shrink.less (Place.leafOf (q / 512)) (by rwa [update_self])
  rw [update_self] at hblk hless
  unfold byteAt
  rw [hblk, hless, hA]

/-! ### Which lengths go through -/

/-- The first file block that the last indirect block on the way to file block `n` leads to. -/
def groupStart (n : ℕ) : ℕ := if n < 134 then 6 else n - (n - 134) % 128

/-- The sizes and lengths for which `cofs_truncate` returns: the length is a number of whole
blocks and not larger than the size, and the loop does not run past the end of the file, or the
indirect block that it then comes to has been left. -/
def TruncatesTo (size length : ℕ) : Prop :=
  length ≤ size ∧ length % 512 = 0 ∧ (TruncateOk size ∨ groupStart (size / 512) < length / 512)

instance (size length : ℕ) : Decidable (TruncatesTo size length) :=
  inferInstanceAs (Decidable (_ ∧ _))

/-- The file blocks that an indirect block of the last level leads to. -/
theorem covers_group_iff {n g : ℕ} {q : Place} (hlt : n < 16518)
    (hq : (Place.leafOf n).parent = some q) :
    q.Covers g ↔ groupStart n ≤ g ∧ g < groupStart n + 128 := by
  unfold Place.leafOf at hq
  unfold groupStart
  by_cases h6 : n < 6
  · rw [if_pos h6] at hq
    cases hq
  · rw [if_neg h6] at hq
    by_cases h134 : n < 134
    · rw [if_pos h134] at hq ⊢
      obtain rfl := Option.some.inj hq
      show (6 : ℕ) < 6 ∧ _ ∨ (6 : ℕ) = 6 ∧ _ ∨ (6 : ℕ) = 7 ∧ _ ↔ _
      omega
    · rw [if_neg h134] at hq ⊢
      obtain rfl := Option.some.inj hq
      simp only [Place.Covers, Fin.val_ofNat]
      omega

theorem leaf_of_sibling {n : ℕ} {q r : Place} (hq : (Place.leafOf n).parent = some q)
    (hr : r.parent = some q) : r.Leaf := by
  unfold Place.leafOf at hq
  split_ifs at hq
  · cases hq
  · obtain rfl := Option.some.inj hq
    cases r with
    | one k => trivial
    | _ => simp [Place.parent] at hr
  · obtain rfl := Option.some.inj hq
    cases r with
    | two m k => trivial
    | _ => simp [Place.parent] at hr

/-- An indirect block is there as long as it leads to a block of the file. -/
theorem Shaped.group_iff {disk : ℕ → Block} {addrs : ℕ → ℕ} {length n : ℕ} {q : Place}
    (hs : Shaped disk addrs length)
    (hlt : n < 16518) (hmod : length % 512 = 0) (hle : length / 512 ≤ n)
    (hq : (Place.leafOf n).parent = some q) :
    addrAt disk addrs q ≠ 0 ↔ groupStart n < length / 512 := by
  constructor
  · intro h0
    obtain ⟨r, hr, hr0⟩ := hs.tight q (Place.not_leaf_of_parent hq) (by simp) h0
    obtain ⟨g, hg, rfl⟩ := Place.exists_leafOf (leaf_of_sibling hq hr)
    have hcov := (covers_group_iff hlt hq).mp (Place.covers_parent hr (Place.covers_leafOf hg))
    have hin := (hs.leaves g hg).mp hr0
    omega
  · intro hg
    have hin := (hs.leaves (groupStart n) (by omega)).mpr (by omega)
    exact addrAt_ne_zero_of_covers hin ((covers_group_iff hlt hq).mpr ⟨Nat.le_refl _, by omega⟩)

/-- Without that indirect block, the round comes to the boot block. -/
theorem gone_of_group {disk : ℕ → Block} {addrs : ℕ → ℕ} {n : ℕ} {q : Place} (h6 : 6 ≤ n)
    (hlt : n < 16518) (hq : (Place.leafOf n).parent = some q)
    (h0 : addrAt disk addrs q = 0) : (n < 134 → addrs 6 = 0) ∧
      (134 ≤ n → addrs 7 ≠ 0 → word (disk (addrs 7)) ((n - 134) / 128) = 0) := by
  unfold Place.leafOf at hq
  rw [if_neg (by omega)] at hq
  constructor
  · intro h134
    rw [if_pos h134] at hq
    obtain rfl := Option.some.inj hq
    exact h0
  · intro h134 h7
    rw [if_neg (by omega)] at hq
    obtain rfl := Option.some.inj hq
    rw [addrAt_of_parent_some (p := .mid _) rfl] at h0
    have h0 : entry disk (addrs 7) (Fin.ofNat 128 ((n - 134) / 128) : ℕ) = 0 := h0
    rwa [entry_of_ne h7, Fin.val_ofNat, Nat.mod_eq_of_lt (by omega)] at h0

/-! ### The call -/

section

variable {o : Open} {A : ℕ → ℕ → ℕ} {i length : ℕ}

/-- What a truncation is to do. -/
def Truncated (o : Open) (length r : ℕ) (o' : Open) : Prop :=
  r = length ∧ o'.node = { o.node with addrs := o'.node.addrs, size := length } ∧
    contents o'.dev.disk o'.node.addrs length =
      (contents o.dev.disk o.node.addrs o.node.size).take length

/-- **A truncation past the end of a file**, of a whole number of blocks that reach the indirect
ones. -/
theorem cofsTruncate_whole (h : Sound X o.dev A) (hA : A i = o.node.addrs) (hi : o.node.inode = i)
    (hlt : i < o.dev.superb.numInodes) (hh : o.dev.held = []) (hb : o.dev.disk 0 = zeroBlock)
    (hs : Shaped o.dev.disk o.node.addrs o.node.size) (hle : length ≤ o.node.size)
    (hmod : length % 512 = 0)
    (hbad : ¬ TruncateOk o.node.size) :
    wp (cofsTruncate length) (fun r o' => groupStart (o.node.size / 512) < length / 512 ∧
      Truncated o length r o')
      (fun e _ => e = .panic "Block allready free" ∧
        ¬ groupStart (o.node.size / 512) < length / 512)
        o := by
  have hsize := hs.le
  unfold maxFileSize at hsize
  unfold TruncateOk at hbad
  have hrounds : o.node.size / 512 + 1 - length / 512 = (o.node.size / 512 - length / 512) + 1 := by
    omega
  simp only [cofsTruncate, wp_bind, wp_read, kassert, decide_eq_true_eq, wp_ite, if_pos hle,
    if_pos hmod, wp_pure]
  rw [hrounds, truncateLoop_add]
  refine (truncateLoop_spec h hA hh hs.tight (by omega) fun f h1 h2 => ?_).mono
    (fun _ o₁ hc => ?_) fun _ _ => False.elim
  · rw [hs.leaves f (by omega)]
    omega
  · have hs₁ := hc.shaped hs hle hmod (by omega)
    have hcont := hc.contents hA hs₁ hle
    have hsound := hc.shrink.sound
    have hA₁ : update A i o₁.node.addrs i = o₁.node.addrs := update_self ..
    have hheld := hc.shrink.held.trans hh
    rw [show length / 512 + (o.node.size / 512 - length / 512) = o.node.size / 512 by omega]
    generalize hn : o.node.size / 512 = n at *
    have hn6 : 6 ≤ n := by omega
    have hn16518 : n < 16518 := by omega
    obtain ⟨q, hq⟩ : ∃ q, (Place.leafOf n).parent = some q := by
      unfold Place.leafOf
      rw [if_neg (by omega)]
      split_ifs
      · exact ⟨_, rfl⟩
      · exact ⟨_, rfl⟩
    have hgroup := hs₁.group_iff hn16518 hmod (by omega) hq
    have hmissing : addrAt o₁.dev.disk o₁.node.addrs (Place.leafOf n) = 0 := by
      by_contra h0
      have := (hs₁.leaves n hn16518).mp h0
      omega
    simp only [truncateLoop, wp_bind, wp_pure]
    by_cases hq0 : addrAt o₁.dev.disk o₁.node.addrs q = 0
    · obtain ⟨h6, h7⟩ := gone_of_group hn6 hn16518 hq hq0
      have hused : o₁.dev.used 0 = true := hsound.metaUsed 0 (Nat.succ_pos _)
      refine (truncateBlock_boot hsound.layout hheld (hc.shrink.boot.trans hb) hused hn6 hn16518 h6
        h7).mono
        (fun _ _ => False.elim) fun e _ he => ⟨he.1, fun hg => hgroup.mpr hg hq0⟩
    · refine (truncateBlock_missing hsound hA₁ hheld hs₁.tight hn16518 hq hq0 hmissing).mono
        (fun _ o₂ hr => ?_)
        fun _ _ => False.elim
      obtain ⟨hnode, hu⟩ := hr
      have hino : o₁.node.inode = i := by
        rw [hc.node]
        exact hi
      have hlt₂ : i < o₂.dev.superb.numInodes := by
        rw [hu.superb, hc.shrink.superb]
        exact hlt
      simp only [wp_setNode, wp_onDev]
      rw [wp_cofsUpdateNode (by rw [hu.held, hheld]; exact List.not_mem_nil)]
      refine ⟨hgroup.mp hq0, rfl, ?_, ?_⟩ <;> dsimp only <;> rw [hnode]
      · rw [hc.node]
        rfl
      · rw [hino]
        generalize FsNode.pack _ = ino
        have hdata : ∀ b, o₁.dev.superb.dataStart ≤ b →
          (o₂.dev.putInode i ino).disk b = o₁.dev.disk b := by
          intro b hge
          have hino_lt := Superblock.inoBlk_lt_dataStart hlt₂
          rw [hu.superb] at hino_lt
          rw [← hu.same b fun hin => Nat.not_lt.mpr hge (hin.lt_dataStart hsound.layout)]
          unfold Dev.putInode
          dsimp only
          rw [hu.superb, update_of_ne (by omega)]
        have hread := contents_of_data hsound (hA₁.symm ▸ hs₁.filled) hdata
        rw [hA₁] at hread
        exact hread.trans hcont

/-- **`cofs_truncate` does what it is to do exactly for the lengths that go through.** -/
theorem cofsTruncate_iff (h : Sound X o.dev A) (hA : A i = o.node.addrs) (hi : o.node.inode = i)
    (hlt : i < o.dev.superb.numInodes) (hh : o.dev.held = []) (hb : o.dev.disk 0 = zeroBlock)
    (hs : Shaped o.dev.disk o.node.addrs o.node.size) :
    wp (cofsTruncate length) (fun r o' => TruncatesTo o.node.size length ∧ Truncated o length r o')
      (fun _ _ => ¬ TruncatesTo o.node.size length) o := by
  by_cases hle : length ≤ o.node.size
  · by_cases hmod : length % 512 = 0
    · by_cases hok : TruncateOk o.node.size
      · refine (cofsTruncate_spec h hA hi hlt hh hs hle hmod hok).mono
          (fun r o' hr => ?_) fun _ _ => False.elim
        obtain ⟨rfl, hnode, -, -, -, -, -, hcont⟩ := hr
        exact ⟨⟨hle, hmod, .inl hok⟩, rfl, hnode, hcont⟩
      · refine (cofsTruncate_whole h hA hi hlt hh hb hs hle hmod hok).mono
          (fun r o' hr => ?_) fun e o' he hto => ?_
        · exact ⟨⟨hle, hmod, .inr hr.1⟩, hr.2⟩
        · exact hto.2.2.elim hok he.2
    · simp only [cofsTruncate, wp_bind, wp_read, kassert, decide_eq_true_eq, wp_ite, if_pos hle,
        if_neg hmod, wp_pure, wp_halt]
      exact fun hto => hmod hto.2.1
  · simp only [cofsTruncate, wp_bind, wp_read, kassert, decide_eq_true_eq, wp_ite,
      if_neg hle, wp_halt]
    exact fun hto => hle hto.1

end

end Cosiris.Cofs
