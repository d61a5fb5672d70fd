import Cosiris.Cofs.Formatted
import Cosiris.Cofs.Entries

/-!
# Holes and overflow in a formatted image

What the program has laid out after each of its steps, from the type and the bytes of each inode:
the blocks that they take are counted, so that it is known when the image is full, when an index
leaves its buffer, and when the root directory, of which the size is rounded up at the end, has a
block too few. -/

namespace Cosiris.Mkcofs

open Function Prog Cofs

/-! ### What an inode holds -/

/-- The type of an inode, and its bytes. -/
structure Content where
  type : ℕ
  data : List UInt8

/-- The record of the inode. -/
def Content.inode (c : Content) (addrs : ℕ → ℕ) : Inode :=
  { newInode c.type with size := c.data.length, addrs := addrs }

/-- The record of an inode that is not in use. -/
def noInode : Inode := { newInode 0 with numLinks := 0 }

/-- The blocks in use, when the inodes hold `T`. -/
def need (sb : Superblock) (T : List Content) : ℕ :=
  sb.dataStart + (T.map fun c => cost (blocks c.data.length)).sum

/-- The addresses of the inodes. -/
def Img.table (s : Img) (i : ℕ) : ℕ → ℕ :=
  if i < s.superb.numInodes then (s.view.inode i).addrs else fun _ => 0

/-- Inode `i` holds `c`. -/
structure Holds (s : Img) (i : ℕ) (c : Content) : Prop where
  inode : s.view.inode i = c.inode (s.view.inode i).addrs
  le : c.data.length ≤ 16518 * 512
  upto : Upto s.view.disk (s.view.inode i).addrs (blocks c.data.length)
  contents : contents s.view.disk (s.view.inode i).addrs c.data.length = c.data

/-- The inodes from 1 on hold `T`, and the others are not in use. -/
structure Laid (s : Img) (T : List Content) : Prop where
  marks : Marks s s.table
  freeInode : s.freeInode = T.length + 1
  fit : T.length < s.superb.numInodes
  types : ∀ c ∈ T, c.type < 2 ^ 16
  holds : ∀ k c, T[k]? = some c → Holds s (k + 1) c
  rest : ∀ i, i < s.superb.numInodes → i = 0 ∨ T.length < i → s.view.inode i = noInode
  count : s.freeBlock = need s.superb T

section

variable {s s' : Img} {A A' : ℕ → ℕ → ℕ} {i j k : ℕ} {c : Content} {T : List Content}

theorem Img.table_of_lt (h : i < s.superb.numInodes) :
    s.table i = (s.view.inode i).addrs := if_pos h

theorem Content.inode_fits (ht : c.type < 2 ^ 16) (hl : c.data.length < 2 ^ 32) {addrs : ℕ → ℕ}
    (ha : ∀ k, k < 9 → addrs k < 2 ^ 32) (h9 : ∀ k, 9 ≤ k → addrs k = 0) :
    (c.inode addrs).Fits := by
  constructor <;>
    first
    | exact ht
    | exact hl
    | exact ha
    | exact h9
    | exact Nat.two_pow_pos _
    | exact Nat.one_lt_two_pow (by decide)

theorem Holds.filled (h : Holds s i c) :
    Filled s.view.disk (s.view.inode i).addrs c.data.length := by
  refine ⟨h.le, fun q hq => (h.upto _).mpr ⟨q / 512, ?_, Place.covers_leafOf ?_⟩⟩
  · unfold blocks
    omega
  · have := h.le
    omega

/-- A step on another inode. -/
theorem Holds.frame (h : Holds s j c) (hf : Frame NoOther s.view s.table i s'.view A') (hj : j ≠ i)
    (hlt : j < s.superb.numInodes) : Holds s' j c := by
  have hinode : s'.view.inode j = s.view.inode j := hf.inodes j hj hlt
  have htable : s.table j = (s.view.inode j).addrs := Img.table_of_lt hlt
  have haddr := hf.rest j hj
  have hcont := hf.contents hj (htable ▸ h.filled)
  rw [hf.table j hj, htable] at hcont
  rw [htable] at haddr
  constructor
  case inode =>
    rw [hinode]
    exact h.inode
  case le => exact h.le
  case upto =>
    rw [hinode]
    intro p
    rw [haddr]
    exact h.upto p
  case contents =>
    rw [hinode, hcont]
    exact h.contents

/-! ### Records -/

/-- The image with a record written. -/
def Img.putInode (s : Img) (i : ℕ) (ino : Inode) : Img :=
  s.write (s.superb.inoBlk i) (Cofs.putInode (s.block (s.superb.inoBlk i)) (i % 8) ino)

theorem Geometry.inoBlk_lt (h : Geometry s) (hi : i < s.superb.numInodes) :
    s.superb.inoBlk i < s.superb.size :=
  Nat.lt_of_lt_of_le (Superblock.inoBlk_lt_dataStart hi) h.layout.data

theorem Geometry.view_inode (h : Geometry s) (i : ℕ) : s.view.inode i = s.inode i := by
  show getInode (s.view.disk (s.superb.inoBlk i)) (i % 8) = _
  rw [view_of_not_inBitmap (Superblock.inoBlk_not_inBitmap h.layout i)]
  rfl

theorem Geometry.view_putInode (h : Geometry s) (ino : Inode) :
    (s.putInode i ino).view = s.view.putInode i ino := by
  have hnb := Superblock.inoBlk_not_inBitmap h.layout i
  unfold Img.putInode Dev.putInode
  rw [Img.view_write hnb,
    show s.view.disk (s.view.superb.inoBlk i) = _ from view_of_not_inBitmap hnb]
  rfl

theorem Geometry.wp_readInode (h : Geometry s) (hi : i < s.superb.numInodes)
    {Q : Inode → Img → Prop}
    {E : Stop → Img → Prop} : wp (readInode i) Q E s = Q (s.view.inode i) s := by
  rw [h.view_inode]
  simp only [readInode, wp_bind, wp_read, wp_pure, h.wp_readSector (h.inoBlk_lt hi)]
  rfl

theorem Geometry.wp_writeInode (h : Geometry s) (hi : i < s.superb.numInodes) {ino : Inode}
    {Q : Unit → Img → Prop}
    {E : Stop → Img → Prop} : wp (writeInode i ino) Q E s = Q () (s.putInode i ino) := by
  simp only [writeInode, wp_bind, wp_read, h.wp_readSector (h.inoBlk_lt hi),
    h.wp_writeSector (h.inoBlk_lt hi)]
  rfl

theorem Marks.start_le (h : Marks s A) : s.superb.dataStart ≤ s.freeBlock := by
  rcases Nat.eq_or_lt_of_le h.high with he | hlt
  · rw [he]
    exact h.layout.data
  · exact h.dataStart_le hlt

theorem Marks.putInode (h : Marks s A) (hi : i < s.superb.numInodes) (ino : Inode) :
    Marks (s.putInode i ino) A := by
  have hnb := Superblock.inoBlk_not_inBitmap h.layout i
  have hlt := Superblock.inoBlk_lt_dataStart hi
  have hstart := h.start_le
  have h1 := h.layout.bitmap
  have h2 := h.layout.inodes
  have hone : 1 < s.superb.inoBlk i := by
    unfold Superblock.inoBlk
    omega
  refine ⟨⟨h.sectors, h.small, h.layout⟩, ?_, h.high, fun b hbf hbs => ?_,
    fun b hb => ?_, h.assigned, ?_, ?_⟩
  · rw [h.view_putInode]
    exact (h.sound.writeInode hi ino).1.sound
  · have hbf' : s.freeBlock ≤ b := hbf
    rw [Img.putInode, Img.block_write, update_of_ne (by omega)]
    exact h.fresh b hbf' hbs
  · rw [Img.putInode, Img.block_write, update_of_ne (by rintro rfl; exact hnb hb)]
    exact h.bitmap b hb
  · rw [Img.putInode, Img.block_write, update_of_ne (by omega)]
    exact h.boot
  · rw [Img.putInode, Img.block_write, update_of_ne (by omega)]
    exact h.super

theorem Laid.numInodes_pos (h : Laid s T) (hk : T[k]? = some c) : k + 1 < s.superb.numInodes := by
  obtain ⟨hlt, -⟩ := List.getElem?_eq_some_iff.mp hk
  have := h.fit
  omega

/-- An inode that is not in use has no block. -/
theorem Laid.table_free (h : Laid s T) (hi : T.length < i) : s.table i = fun _ => 0 := by
  unfold Img.table
  split_ifs with hlt
  · rw [h.rest i hlt (.inr hi)]
    rfl
  · rfl

theorem need_append (sb : Superblock) (T : List Content) (c : Content) :
    need sb (T ++ [c]) = need sb T + cost (blocks c.data.length) := by
  unfold need
  rw [List.map_append, List.sum_append, List.map_singleton, List.sum_singleton, Nat.add_assoc]

/-- **An inode is allocated.** -/
theorem inodeAlloc_spec {type : ℕ} (h : Laid s T) (hfit : T.length + 1 < s.superb.numInodes)
    (ht : type < 2 ^ 16) :
    wp (inodeAlloc type) (fun r s' => r = T.length + 1 ∧ Laid s' (T ++ [⟨type, []⟩]) ∧
      s'.superb = s.superb)
      (fun _ _ => False) s := by
  have hfree := h.freeInode
  have hwidth := h.marks.layout.width
  have hs₁ : Marks { s with freeInode := (s.freeInode + 1) % 2 ^ 32 } s.table :=
    ⟨⟨h.marks.sectors, h.marks.small, h.marks.layout⟩, h.marks.sound, h.marks.high, h.marks.fresh,
      h.marks.bitmap, h.marks.assigned, h.marks.boot, h.marks.super⟩
  simp only [inodeAlloc, wp_bind, wp_read, wp_modify, wp_pure]
  rw [hs₁.wp_writeInode (by rw [hfree]; exact hfit), hfree]
  refine ⟨rfl, ?_, rfl⟩
  have hfits : (newInode type).Fits :=
    Content.inode_fits (c := ⟨type, []⟩) ht (Nat.two_pow_pos _)
      (fun _ _ => Nat.two_pow_pos _) fun _ _ => rfl
  generalize hs' : Img.putInode { s with freeInode := (T.length + 1 + 1) % 2 ^ 32 } (T.length + 1)
    (newInode type) = s'
  rw [hfree] at hs₁
  have hview : s'.view = s.view.putInode (T.length + 1) (newInode type) := by
    rw [← hs', hs₁.view_putInode]
    rfl
  have hsuperb : s'.superb = s.superb := by rw [← hs']; rfl
  have hframe : Frame NoOther s.view s.table (T.length + 1) s'.view s.table := by
    rw [hview]
    exact (h.marks.sound.writeInode hfit (newInode type)).1
  have hself : s'.view.inode (T.length + 1) = newInode type := by
    rw [hview]
    exact Dev.inode_putInode_self _ _ hfits
  have htable : s'.table = s.table := by
    funext i
    by_cases hi : i = T.length + 1
    · rw [hi, h.table_free (Nat.lt_succ_self _),
        Img.table_of_lt (by rw [hsuperb]; exact hfit), hself]
      rfl
    · unfold Img.table
      rw [hsuperb]
      split_ifs with hlt
      · rw [hframe.inodes i hi hlt]
      · rfl
  have hmarks : Marks s' s.table := by
    rw [← hs']
    exact hs₁.putInode hfit _
  constructor
  case marks =>
    rw [htable]
    exact hmarks
  case freeInode =>
    rw [← hs', List.length_append]
    exact Nat.mod_eq_of_lt (by omega)
  case fit =>
    rw [hsuperb, List.length_append]
    exact hfit
  case types =>
    intro c hc
    rcases List.mem_append.mp hc with hc | hc
    · exact h.types c hc
    · obtain rfl := List.mem_singleton.mp hc
      exact ht
  case holds =>
    intro k c hk
    rcases Nat.lt_or_ge k T.length with hlt | hge
    · rw [List.getElem?_append_left hlt] at hk
      exact (h.holds k c hk).frame hframe (by omega) (by omega)
    · rw [List.getElem?_append_right hge] at hk
      obtain ⟨hk0, rfl⟩ := List.getElem?_eq_some_iff.mp hk
      obtain rfl : k = T.length := by
        simp at hk0
        omega
      simp only [Nat.sub_self, List.getElem_cons_zero]
      constructor
      case inode =>
        rw [hself]
        rfl
      case le => exact Nat.zero_le _
      case upto =>
        rw [hself]
        intro p
        simp [newInode, addrAt_zero, blocks]
      case contents => rfl
  case rest =>
    intro i hi hout
    rw [hsuperb] at hi
    rw [List.length_append] at hout
    have hne : i ≠ T.length + 1 := by
      rcases hout with rfl | hgt
      · omega
      · simp at hgt
        omega
    rw [hframe.inodes i hne hi]
    exact h.rest i hi (hout.imp id fun hgt => by simp at hgt; omega)
  case count =>
    have hempty : cost (blocks (⟨type, []⟩ : Content).data.length) = 0 := by simp [cost, blocks]
    rw [hsuperb, need_append, ← h.count, ← hs', hempty]
    rfl

/-- One of the contents is replaced. -/
theorem need_set (sb : Superblock) {T : List Content} {k : ℕ} {c : Content} (hk : T[k]? = some c)
    (c' : Content) :
    need sb (T.set k c') + cost (blocks c.data.length) =
      need sb T + cost (blocks c'.data.length) := by
  unfold need
  induction T generalizing k with
  | nil => cases hk
  | cons x T ih =>
    cases k with
    | zero =>
      obtain rfl := Option.some.inj hk
      simp only [List.set_cons_zero, List.map_cons, List.sum_cons]
      omega
    | succ k =>
      have := ih (k := k) hk
      simp only [List.set_cons_succ, List.map_cons, List.sum_cons]
      omega

/-- An append ends early: what the inodes would hold needs more blocks than there are, or not, but
one of them would be longer than a file may be. -/
def Stops (sb : Superblock) (T : List Content) (len : ℕ) (e : Stop) : Prop :=
  e = .exit ∧ sb.size < need sb T ∨ e = .overrun ∧ 16518 * 512 < len ∧ need sb T ≤ sb.size

/-- The addresses that an inode has after an append fit their fields. -/
theorem Appended.addrs_fit {ino ino' : Inode} {offset : ℕ} {bs : List UInt8}
    (h : Appended s A i offset bs ino s' ino')
    (hA : A i = ino.addrs) (hino : ino.Fits) :
    (∀ k, k < 9 → ino'.addrs k < 2 ^ 32) ∧ ∀ k, 9 ≤ k → ino'.addrs k = 0 := by
  have hspare : ∀ k, 8 ≤ k → ino'.addrs k = ino.addrs k := by
    intro k hk
    have := h.filling.spare k hk
    rwa [update_self, hA] at this
  refine ⟨fun k hk => ?_, fun k hk => (hspare k (by omega)).trans (hino.rest k hk)⟩
  rcases Nat.lt_or_ge k 8 with hlt | hge
  · by_cases h0 : ino'.addrs k = 0
    · rw [h0]
      exact Nat.two_pow_pos _
    · have hused := h.marks.lt_size (i := i) (p := .top ⟨k, hlt⟩) (by rw [update_self]; exact h0)
      have hsize := h.marks.size_le
      rw [update_self] at hused
      exact Nat.lt_trans (show ino'.addrs k < _ from hused) (by omega)
  · rw [hspare k hge]
    exact hino.addrs k hk

/-- What is laid out after the bytes are appended, and the record is written. -/
theorem Laid.appended {bs : List UInt8} {ino' : Inode} (h : Laid s T) (hk : T[k]? = some c)
    (happ : Appended s s.table (k + 1) c.data.length bs (s.view.inode (k + 1)) s' ino') :
    Laid (s'.putInode (k + 1) { ino' with size := (c.data ++ bs).length })
      (T.set k ⟨c.type, c.data ++ bs⟩) := by
  have hi := h.numInodes_pos hk
  have hold := h.holds k c hk
  have htable : s.table (k + 1) = (s.view.inode (k + 1)).addrs := Img.table_of_lt hi
  have hsb : s'.superb = s.superb := happ.filling.superb
  have hlen : (c.data ++ bs).length = c.data.length + bs.length := List.length_append
  have hle := happ.le
  have hrecord : { ino' with size := (c.data ++ bs).length } =
    (⟨c.type, c.data ++ bs⟩ : Content).inode ino'.addrs := by
    rw [happ.record, hold.inode]
    rfl
  obtain ⟨haddrs, hspare⟩ := happ.addrs_fit htable (s.view.inode_fits _)
  have hfits : ((⟨c.type, c.data ++ bs⟩ : Content).inode ino'.addrs).Fits :=
    Content.inode_fits (c := ⟨c.type, c.data ++ bs⟩) (h.types c (List.mem_of_getElem? hk))
      (by dsimp only; omega)
      haddrs hspare
  have hmarks := happ.marks.putInode (i := k + 1) (by rw [hsb]; exact hi)
    ((⟨c.type, c.data ++ bs⟩ : Content).inode ino'.addrs)
  have hview :=
    happ.marks.view_putInode (i := k + 1) ((⟨c.type, c.data ++ bs⟩ : Content).inode ino'.addrs)
  have hwrote :=
    happ.filling.wrote.writeInode hi ((⟨c.type, c.data ++ bs⟩ : Content).inode ino'.addrs)
  have haddr :=
    (happ.filling.sound.writeInode (i := k + 1) (show _ < s'.superb.numInodes by rw [hsb]; exact hi)
    ((⟨c.type, c.data ++ bs⟩ : Content).inode ino'.addrs)).2
  rw [hrecord]
  generalize hs₂ : s'.putInode (k + 1) ((⟨c.type, c.data ++ bs⟩ : Content).inode ino'.addrs) =
    s₂ at hmarks hview
  rw [← hview] at hwrote haddr
  have hsb₂ : s₂.superb = s.superb := by
    rw [← hs₂]
    exact hsb
  have hself : s₂.view.inode (k + 1) = (⟨c.type, c.data ++ bs⟩ : Content).inode ino'.addrs := by
    rw [hview]
    exact Dev.inode_putInode_self _ _ hfits
  have haddrs₂ : (s₂.view.inode (k + 1)).addrs = ino'.addrs := by
    rw [hself]
    rfl
  have htable₂ : s₂.table = update s.table (k + 1) ino'.addrs := by
    funext j
    by_cases hj : j = k + 1
    · rw [hj, update_self, Img.table_of_lt (by rw [hsb₂]; exact hi), haddrs₂]
    · rw [update_of_ne hj]
      unfold Img.table
      rw [hsb₂]
      split_ifs with hlt
      · rw [hwrote.inodes j hj hlt]
      · rfl
  constructor
  case marks =>
    rw [htable₂]
    exact hmarks
  case freeInode =>
    rw [List.length_set, ← h.freeInode, ← happ.freeInode, ← hs₂]
    rfl
  case fit =>
    rw [List.length_set, hsb₂]
    exact h.fit
  case types =>
    intro x hx
    rcases List.mem_or_eq_of_mem_set hx with hx | rfl
    · exact h.types x hx
    · exact h.types c (List.mem_of_getElem? hk)
  case holds =>
    intro j x hx
    by_cases hj : j = k
    · subst hj
      have hlt := (List.getElem?_eq_some_iff.mp hk).1
      rw [List.getElem?_set_self hlt] at hx
      obtain rfl := Option.some.inj hx
      constructor
      case inode => rw [haddrs₂, hself]
      case le => exact hlen ▸ hle
      case upto =>
        have hk₂ := haddr (j + 1)
        rw [update_self] at hk₂
        rw [haddrs₂]
        intro p
        rw [hk₂]
        dsimp only
        rw [hlen]
        exact happ.upto p
      case contents =>
        have hcont := hwrote.contents (htable ▸ hold.filled) (Nat.le_refl _)
        rw [update_self, htable, hold.contents, Nat.max_eq_right (Nat.le_add_right _ _),
          ← hlen] at hcont
        rw [haddrs₂, hcont]
        unfold overlay
        rw [List.take_length, List.drop_eq_nil_of_le (Nat.le_add_right _ _), List.append_nil]
    · rw [List.getElem?_set_ne (Ne.symm hj)] at hx
      exact (h.holds j x hx).frame hwrote.toFrame (by omega) (h.numInodes_pos hx)
  case rest =>
    intro j hj hout
    rw [hsb₂] at hj
    rw [List.length_set] at hout
    have hlt := (List.getElem?_eq_some_iff.mp hk).1
    rw [hwrote.inodes j (by omega) hj]
    exact h.rest j hj hout
  case count =>
    have hneed := need_set s.superb hk ⟨c.type, c.data ++ bs⟩
    have hcount := happ.count
    have hfree : s₂.freeBlock = s'.freeBlock := by
      rw [← hs₂]
      rfl
    have hc := h.count
    dsimp only at hneed
    rw [hlen] at hneed
    rw [hsb₂, hfree]
    omega

/-- **Bytes are appended to an inode.** -/
theorem inodeAppend_spec (bs : List UInt8) (h : Laid s T) (hk : T[k]? = some c) :
    wp (inodeAppend (k + 1) bs) (fun _ s' => Laid s' (T.set k ⟨c.type, c.data ++ bs⟩) ∧
      s'.superb = s.superb)
      (fun e _ => Stops s.superb (T.set k ⟨c.type, c.data ++ bs⟩) (c.data ++ bs).length e) s := by
  have hi := h.numInodes_pos hk
  have hold := h.holds k c hk
  have htable : s.table (k + 1) = (s.view.inode (k + 1)).addrs := Img.table_of_lt hi
  have hsize : (s.view.inode (k + 1)).size = c.data.length := by rw [hold.inode]; rfl
  have hneed := need_set s.superb hk ⟨c.type, c.data ++ bs⟩
  have hlen : (c.data ++ bs).length = c.data.length + bs.length := List.length_append
  have hcount := h.count
  rw [inodeAppend, wp_bind, h.marks.wp_readInode hi, wp_bind, hsize]
  refine (appendLoop_spec h.marks htable hold.upto hold.le (Nat.le_refl _)).mono
    (fun r s₁ hr => ?_) fun e s₁ he => ?_
  · obtain ⟨ino', offset⟩ := r
    obtain ⟨hoffset, happ⟩ := hr
    dsimp only at hoffset happ ⊢
    have hsb : s₁.superb = s.superb := happ.filling.superb
    rw [happ.marks.wp_writeInode (by rw [hsb]; exact hi), hoffset, ← hlen]
    exact ⟨h.appended hk happ, hsb⟩
  · rcases he with ⟨he, hlt⟩ | ⟨he, hlong, hle⟩
    · refine .inl ⟨he, ?_⟩
      dsimp only at hneed
      rw [hlen] at hneed
      omega
    · refine .inr ⟨he, by omega, ?_⟩
      dsimp only at hneed
      rw [hlen] at hneed
      omega

/-! ### Files -/

theorem cost_of_long {n : ℕ} (h : 16518 * 512 < n) : cost (blocks n) = cost 16518 := by
  unfold blocks cost
  split_ifs <;> omega

/-- What stops an append of the first bytes stops the append of all. -/
theorem Stops.longer {sb : Superblock} {t : ℕ} {d d' : List UInt8} {e : Stop} (hk : T[k]? = some c)
    (h : Stops sb (T.set k ⟨t, d⟩) d.length e) (hd : d.length ≤ d'.length) :
    Stops sb (T.set k ⟨t, d'⟩) d'.length e := by
  have hneed := need_set sb hk ⟨t, d⟩
  have hneed' := need_set sb hk ⟨t, d'⟩
  dsimp only at hneed hneed'
  rcases h with ⟨he, hlt⟩ | ⟨he, hlong, hle⟩
  · have hmono : cost (blocks d.length) ≤ cost (blocks d'.length) :=
      cost_mono (by unfold blocks; omega)
    exact .inl ⟨he, by omega⟩
  · have hlong' : 16518 * 512 < d'.length := by omega
    rw [cost_of_long hlong] at hneed
    rw [cost_of_long hlong'] at hneed'
    exact .inr ⟨he, hlong', by omega⟩

/-- **A file is copied.** -/
theorem copyFile_spec {n : ℕ} {data : List UInt8} (h : Laid s T) (hk : T[k]? = some c)
    (hn : data.length ≤ n) :
    wp (copyFile (k + 1) n data)
      (fun _ s' => Laid s' (T.set k ⟨c.type, c.data ++ data⟩) ∧ s'.superb = s.superb)
      (fun e _ => Stops s.superb (T.set k ⟨c.type, c.data ++ data⟩) (c.data ++ data).length e)
      s := by
  have hdone : T.set k ⟨c.type, c.data ++ []⟩ = T := by
    rw [List.append_nil]
    obtain ⟨hlt, rfl⟩ := List.getElem?_eq_some_iff.mp hk
    exact List.set_getElem_self ..
  induction n generalizing s T c data with
  | zero =>
    obtain rfl : data = [] := List.length_eq_zero_iff.mp (by omega)
    exact ⟨by rw [hdone]; exact h, rfl⟩
  | succ n ih =>
    rw [copyFile, wp_ite]
    split_ifs with h0
    · subst h0
      exact ⟨by rw [hdone]; exact h, rfl⟩
    · have hpos : 0 < data.length := List.length_pos_iff.mpr h0
      have hlt := (List.getElem?_eq_some_iff.mp hk).1
      have hsplit : c.data ++ data.take 512 ++ data.drop 512 = c.data ++ data := by
        rw [List.append_assoc, List.take_append_drop]
      rw [wp_bind]
      refine (inodeAppend_spec (data.take 512) h hk).mono (fun _ s₁ hs => ?_) fun e _ he => ?_
      · obtain ⟨h₁, hsb⟩ := hs
        have hk₁ : (T.set k ⟨c.type, c.data ++ data.take 512⟩)[k]? =
          some ⟨c.type, c.data ++ data.take 512⟩ :=
          List.getElem?_set_self hlt
        have hn₁ : (data.drop 512).length ≤ n := by
          rw [List.length_drop]
          omega
        have hrest := ih h₁ hk₁ hn₁ (by rw [List.append_nil, List.set_set])
        dsimp only at hrest
        rw [List.set_set, hsplit, hsb] at hrest
        exact hrest
      · exact he.longer hk (by simp)

/-- The entries of the files in the root directory, from the given inode number on. -/
def entries (files : List Input) : List UInt8 :=
  (files.mapIdx fun k f => putDirent (k + 2) f.name).flatten

/-- What the inodes are to hold: the root directory, and the files. -/
def layout (files : List Input) : List Content :=
  ⟨0x4000, putDirent 1 dot ++ putDirent 1 dotdot ++ entries files⟩ :: files.map fun f =>
    ⟨0x8000, f.data⟩

theorem entries_append (files : List Input) (f : Input) :
    entries (files ++ [f]) = entries files ++ putDirent (files.length + 2) f.name := by
  unfold entries
  rw [List.mapIdx_append, List.flatten_append]
  simp

/-- The size of the root directory, when there are `n` files. -/
def rootSize (n : ℕ) : ℕ := 32 * (n + 2)

theorem length_entries (files : List Input) : (entries files).length = 32 * files.length := by
  induction files using List.reverseRecOn with
  | nil => rfl
  | append_singleton files f ih =>
    rw [entries_append, List.length_append, ih, length_putDirent, List.length_append,
      List.length_singleton]
    omega

theorem layout_root (files : List Input) :
    ∃ c, (layout files)[0]? = some c ∧ c.data.length = rootSize files.length := by
  refine ⟨_, rfl, ?_⟩
  dsimp only
  rw [List.length_append, List.length_append, length_putDirent, length_putDirent, length_entries,
    rootSize]
  omega

/-- The file, but for its bytes. -/
def Input.empty (f : Input) : Input := ⟨f.name, []⟩

/-- How the copy of the next file ends early: with its entry in the root directory, or with its
bytes. -/
def StopsAt (sb : Superblock) (pre : List Input) (f : Input) (e : Stop) : Prop :=
  Stops sb (layout (pre ++ [f.empty])) (rootSize (pre.length + 1)) e ∨
    rootSize (pre.length + 1) ≤ 16518 * 512 ∧ Stops sb (layout (pre ++ [f])) f.data.length e

theorem Laid.rootSize_le {files : List Input} (h : Laid s (layout files)) :
    rootSize files.length ≤ 16518 * 512 := by
  obtain ⟨c, hc, hlen⟩ := layout_root files
  rw [← hlen]
  exact (h.holds 0 c hc).le

theorem Laid.data_le {files : List Input} (h : Laid s (layout files)) {f : Input} (hf : f ∈ files) :
    f.data.length ≤ 16518 * 512 := by
  obtain ⟨k, hk⟩ := List.getElem?_of_mem hf
  have hc : (layout files)[k + 1]? = some ⟨0x8000, f.data⟩ := by
    unfold layout
    rw [List.getElem?_cons_succ, List.getElem?_map, hk]
    rfl
  exact (h.holds (k + 1) _ hc).le

/-- The root directory gets an entry for a file that has no bytes yet. -/
theorem layout_entry (pre : List Input) (f : Input) :
    (layout pre ++ [(⟨0x8000, []⟩ : Content)]).set 0
      ⟨0x4000, putDirent 1 dot ++ putDirent 1 dotdot ++ entries pre ++
      putDirent (pre.length + 2) f.name⟩ = layout (pre ++ [f.empty]) := by
  unfold layout
  rw [entries_append, List.map_append, List.append_assoc (putDirent 1 dot ++ putDirent 1 dotdot)]
  rfl

/-- The file gets its bytes. -/
theorem layout_data (pre : List Input) (f : Input) :
    (layout (pre ++ [f.empty]))[pre.length + 1]? = some ⟨0x8000, []⟩ ∧
    (layout (pre ++ [f.empty])).set (pre.length + 1) ⟨0x8000, f.data⟩ = layout (pre ++ [f]) := by
  unfold layout
  rw [entries_append, entries_append, List.getElem?_cons_succ, List.set_cons_succ, List.map_append,
    List.map_append, List.getElem?_append_right (by simp), List.set_append_right _ _ (by simp)]
  simp [Input.empty]

/-- **The next file is added.** -/
theorem addFile_spec {pre : List Input} {f : Input} (h : Laid s (layout pre))
    (hfit : pre.length + 2 < s.superb.numInodes) :
    wp (addFile f) (fun _ s' => Laid s' (layout (pre ++ [f])) ∧ s'.superb = s.superb)
      (fun e _ => StopsAt s.superb pre f e) s := by
  have hlen : (layout pre).length = pre.length + 1 := by simp [layout]
  rw [addFile, wp_bind]
  refine (inodeAlloc_spec h (by rw [hlen]; exact hfit) (by decide)).mono
    (fun inum s₁ hs => ?_) fun _ _ => False.elim
  obtain ⟨rfl, h₁, hsb₁⟩ := hs
  have hroot : (layout pre ++ [⟨0x8000, []⟩])[0]? =
      some ⟨0x4000, putDirent 1 dot ++ putDirent 1 dotdot ++ entries pre⟩ := rfl
  have hentry := inodeAppend_spec (putDirent (pre.length + 2) f.name) h₁ hroot
  have hsize :
    (putDirent 1 dot ++ putDirent 1 dotdot ++ entries pre ++
      putDirent (pre.length + 2) f.name).length =
      rootSize (pre.length + 1) := by
    simp only [List.length_append, length_putDirent, length_entries, rootSize]
    omega
  dsimp only at hentry
  rw [layout_entry, hsize, hsb₁] at hentry
  rw [hlen, wp_bind]
  refine hentry.mono (fun _ s₂ hs => ?_) fun e _ => .inl
  obtain ⟨h₂, hsb₂⟩ := hs
  obtain ⟨hfile, hset⟩ := layout_data pre f
  have hcopy := copyFile_spec h₂ hfile (Nat.le_refl f.data.length)
  dsimp only at hcopy
  rw [List.nil_append, hset, hsb₂] at hcopy
  have hroot_le := h₂.rootSize_le
  rw [List.length_append, List.length_singleton] at hroot_le
  exact hcopy.mono (fun _ _ => id) fun e _ he => .inr ⟨hroot_le, he⟩

/-- How the copy of the files ends early: with one of them, after those before it were copied. -/
def StopsIn (sb : Superblock) (pre files : List Input) (e : Stop) : Prop :=
  ∃ a f b, files = a ++ f :: b ∧ StopsAt sb (pre ++ a) f e ∧
    rootSize (pre ++ a).length ≤ 16518 * 512 ∧
    ∀ g ∈ pre ++ a, g.data.length ≤ 16518 * 512

/-- After the files `pre` there is an inode for each of `files` to which the program gets: the
image has the blocks for those before it. -/
def Numbered (sb : Superblock) (pre files : List Input) : Prop := ∀ a f b, files = a ++ f :: b →
  need sb (layout (pre ++ a)) ≤ sb.size → (pre ++ a).length + 2 < sb.numInodes

theorem Numbered.tail {sb : Superblock} {pre files : List Input} {f : Input}
    (h : Numbered sb pre (f :: files)) : Numbered sb (pre ++ [f]) files := by
  rintro a g b rfl hle
  rw [List.append_assoc] at hle ⊢
  exact h (f :: a) g b rfl hle

/-- **The files are added.** -/
theorem addFiles_spec {pre files : List Input} (h : Laid s (layout pre))
    (hfit : Numbered s.superb pre files) :
    wp (addFiles files) (fun _ s' => Laid s' (layout (pre ++ files)) ∧ s'.superb = s.superb)
      (fun e _ => StopsIn s.superb pre files e) s := by
  induction files generalizing s pre with
  | nil => exact ⟨by rw [List.append_nil]; exact h, rfl⟩
  | cons f files ih =>
    have hneed : need s.superb (layout pre) ≤ s.superb.size := h.count ▸ h.marks.high
    have hnum := hfit [] f files rfl (by rwa [List.append_nil])
    rw [List.append_nil] at hnum
    rw [addFiles, wp_bind]
    refine (addFile_spec h (f := f) hnum).mono (fun _ s₁ hs => ?_) fun e _ he => ?_
    · obtain ⟨h₁, hsb⟩ := hs
      refine (ih h₁ (hsb ▸ hfit.tail)).mono (fun _ s₂ hs => ?_) fun e _ he => ?_
      · rw [List.append_assoc] at hs
        exact ⟨hs.1, hs.2.trans hsb⟩
      · obtain ⟨a, g, b, rfl, hstop, hroot, hdata⟩ := he
        rw [hsb, List.append_assoc] at hstop
        rw [List.append_assoc] at hroot hdata
        exact ⟨f :: a, g, b, rfl, hstop, hroot, hdata⟩
    · refine ⟨[], f, files, rfl, ?_, ?_, ?_⟩ <;> rw [List.append_nil]
      · exact he
      · exact h.rootSize_le
      · exact fun g hg => h.data_le hg

end

/-! ### The start -/

/-- The superblock of the image. -/
abbrev superblock (sectors : ℕ) : Superblock := .mkcofs (sectors - partitionOffset)

/-- The image is smaller than 4 GB, and its superblock counts an inode for the root and for each
of the files to which the program gets. -/
structure Fits (sectors : ℕ) (files : List Input) : Prop where
  small : sectors < 2 ^ 23
  root : 1 < (superblock sectors).numInodes
  inodes : Numbered (superblock sectors) [] files

section

variable {sectors : ℕ} {disk : ℕ → Block} {files : List Input} {s : Img}

theorem Fits.numInodes (h : Fits sectors files) :
    (superblock sectors).numInodes = (sectors - partitionOffset) / 8 := by
  have h2 := h.small
  show (sectors - partitionOffset) * 512 % 2 ^ 32 / 4096 = _
  omega

theorem Fits.le_size (h : Fits sectors files) : 16 ≤ sectors - partitionOffset := by
  have h1 := h.root
  rw [h.numInodes] at h1
  omega

theorem Fits.offset (h : Fits sectors files) : partitionOffset ≤ sectors := by
  have := h.le_size
  omega

theorem Fits.cofsSize (h : Fits sectors files) : cofsSize sectors = sectors - partitionOffset := by
  have h1 := h.le_size
  have h2 := h.small
  unfold Mkcofs.cofsSize
  omega

theorem Fits.layout (h : Fits sectors files) : (superblock sectors).Layout := by
  have hn := h.numInodes
  have h2 := h.small
  have h3 := h.le_size
  have hsize : (superblock sectors).size = sectors - partitionOffset := rfl
  have hstart : (superblock sectors).inodeStart = 2 + ((sectors - partitionOffset) / 4096 + 1) :=
    rfl
  constructor
  case bitmap => exact Nat.le_refl 2
  case inodes =>
    show 2 + (sectors - partitionOffset + 4095) / 4096 ≤
      2 + ((sectors - partitionOffset) / 4096 + 1)
    omega
  case data =>
    unfold Superblock.dataStart
    rw [hn, hsize, hstart]
    omega
  case size =>
    rw [hsize]
    omega
  case root => exact h.root
  case width =>
    rw [hn]
    omega

theorem getInode_zeroBlock (k : ℕ) : getInode zeroBlock k = noInode := by
  have hz : ∀ a n, getLe zeroBlock a n = 0 := getLe_zero
  unfold getInode noInode newInode
  simp [hz]

/-- The partition is zero, but for the superblock. -/
theorem laid_nil (hfits : Fits sectors files) (hsec : s.sectors = sectors)
    (hsb : s.superb = superblock sectors)
    (hino : s.freeInode = 1) (hfree : s.freeBlock = (superblock sectors).dataStart)
    (hass : s.assigned = [])
    (hzero : ∀ b, b < (superblock sectors).size → b ≠ 1 → s.block b = zeroBlock)
    (hsuper : s.block 1 = superBlock (superblock sectors)) : Laid s [] := by
  have hlayout : s.superb.Layout := hsb ▸ hfits.layout
  have hsize : s.superb.size + partitionOffset = sectors := by
    rw [hsb]
    exact Nat.sub_add_cancel hfits.offset
  have hgeo : Geometry s := ⟨hsec.trans hsize.symm, hsec ▸ hfits.small, hlayout⟩
  have h1 := hlayout.bitmap
  have h2 := hlayout.inodes
  have h3 := hlayout.data
  have hzero' : ∀ b, b < s.superb.size → b ≠ 1 → s.block b = zeroBlock := by
    rw [hsb]
    exact hzero
  have hinode : ∀ i, i < s.superb.numInodes → s.view.inode i = noInode := by
    intro i hi
    rw [hgeo.view_inode, Img.inode,
      hzero' _ (hgeo.inoBlk_lt hi) (by unfold Superblock.inoBlk; omega)]
    exact getInode_zeroBlock _
  have htable : s.table = fun _ _ => 0 := by
    funext i
    unfold Img.table
    split_ifs with hi
    · rw [hinode i hi]
      rfl
    · rfl
  have hsound : Sound NoOther s.view s.table := by
    have href : ∀ o, refAt s.view s.table o = 0 := by
      intro o
      unfold refAt
      rw [htable]
      exact addrAt_zero _ _
    refine ⟨hlayout, ⟨fun ho => absurd (href _) ho, fun ho => absurd (href _) ho, fun b => ?_⟩⟩
    have hle : s.superb.dataStart ≤ s.superb.numBits := hlayout.dataStart_le
    constructor
    · rintro ⟨hb, hu⟩
      rw [view_used hb, hfree, ← hsb] at hu
      exact .inl (.inl (of_decide_eq_true hu))
    · rintro ((hb | hb) | ⟨hb, o, ho⟩)
      · have hb' : b < s.superb.dataStart := hb
        refine ⟨Nat.lt_of_lt_of_le hb' hle, ?_⟩
        rw [view_used (Nat.lt_of_lt_of_le hb' hle), hfree, ← hsb]
        exact decide_eq_true hb'
      · exact hb.elim
      · exact absurd (ho.symm.trans (href o)) hb
  have hmarks : Marks s s.table := by
    refine ⟨hgeo, hsound, ?_, fun b hb hbs => ?_, fun b hb => ?_, ?_, ?_, ?_⟩
    · rw [hfree, ← hsb]
      exact h3
    · rw [hfree, ← hsb] at hb
      refine hzero' b hbs ?_
      unfold Superblock.dataStart at hb
      omega
    · have hlt := hb.lt_dataStart hlayout
      exact hzero' b (Nat.lt_of_lt_of_le hlt h3) (by have := hb.1; omega)
    · rw [hass]
      exact fun b hb => absurd hb List.not_mem_nil
    · refine hzero' 0 ?_ (by omega)
      unfold Superblock.dataStart at h3
      omega
    · rw [hsb]
      exact hsuper
  have hnum := hlayout.root
  refine ⟨hmarks, hino, ?_, ?_, ?_, fun i hi _ => hinode i hi, ?_⟩
  · exact Nat.lt_trans Nat.zero_lt_one hnum
  · exact fun c hc => absurd hc List.not_mem_nil
  · exact fun k c hk => by cases hk
  · rw [hfree, hsb]
    rfl

/-- **The partition is cleared**, and gets its superblock. -/
theorem clear_spec (hfits : Fits sectors files) (hsec : s.sectors = sectors)
    (hsb : s.superb = superblock sectors)
    (hino : s.freeInode = 1) (hfree : s.freeBlock = (superblock sectors).dataStart)
    (hass : s.assigned = []) :
    wp (do
        upTo (fun i => writeSector i zeroBlock) (superblock sectors).size
        writeSector 1 (superBlock (superblock sectors)))
      (fun _ s' => Laid s' [] ∧ s'.superb = superblock sectors) (fun _ _ => False) s := by
  have hsize : (superblock sectors).size + partitionOffset = sectors :=
    Nat.sub_add_cancel hfits.offset
  have hgeo : ∀ t : Img, t.sectors = sectors → t.superb = superblock sectors → Geometry t := by
    intro t ht hs
    rw [← hs] at hsize
    exact ⟨ht.trans hsize.symm, ht ▸ hfits.small, hs ▸ hfits.layout⟩
  rw [wp_bind]
  refine (wp_upTo
    (I := fun n t => t.sectors = sectors ∧ t.superb = superblock sectors ∧
    t.freeInode = 1 ∧
    t.freeBlock = (superblock sectors).dataStart ∧ t.assigned = [] ∧ ∀ b, b < n →
      t.block b = zeroBlock)
    ⟨hsec, hsb, hino, hfree, hass, fun b hb => absurd hb (Nat.not_lt_zero _)⟩
      fun n t hn hI => ?_).mono
    (fun _ t hI => ?_) fun _ _ => id
  · obtain ⟨h1, h2, h3, h4, h5, hz⟩ := hI
    rw [(hgeo t h1 h2).wp_writeSector (by rw [h2]; exact hn)]
    refine ⟨h1, h2, h3, h4, h5, fun b hb => ?_⟩
    show (t.write n zeroBlock).block b = zeroBlock
    rw [Img.block_write]
    by_cases hbn : b = n
    · rw [hbn, update_self]
    · rw [update_of_ne hbn]
      exact hz b (by omega)
  · obtain ⟨h1, h2, h3, h4, h5, hz⟩ := hI
    have hone : 1 < (superblock sectors).size := by
      have := hfits.le_size
      show 1 < sectors - partitionOffset
      omega
    rw [(hgeo t h1 h2).wp_writeSector (by rw [h2]; exact hone)]
    refine ⟨laid_nil hfits h1 h2 h3 h4 h5 (fun b hb hne => ?_) ?_, h2⟩
    · show (t.write 1 (superBlock (superblock sectors))).block b = zeroBlock
      rw [Img.block_write, update_of_ne hne]
      exact hz b hb
    · show (t.write 1 (superBlock (superblock sectors))).block 1 = _
      rw [Img.block_write, update_self]

/-! ### The end -/

/-- The record of the root directory with its size rounded up. -/
def Img.rounded (s : Img) : Inode := { s.view.inode 1 with size := roundUp (s.view.inode 1).size }

/-- The program has run to its end. -/
structure Done (files : List Input) (s s' : Img) : Prop where
  laid : Laid s (layout files)
  superb : s'.superb = s.superb
  freeBlock : s'.freeBlock = s.freeBlock
  assigned : s'.assigned = s.assigned
  enough : need s.superb (layout files) ≤ 4096
  block : s'.block = (s.view.putInode 1 s.rounded).disk

/-- With the bits of at most 4096 blocks set, the bitmap is that of the view. -/
theorem Marks.write_bitmap {A : ℕ → ℕ → ℕ} (h : Marks s A) (hle : s.freeBlock ≤ 4096) :
    (s.write s.superb.bitmapStart (bits s.freeBlock)).block = s.view.disk := by
  have hpos : 0 < s.superb.numMaps := by
    have hroot := h.layout.root
    have hdata := h.layout.data
    unfold Superblock.dataStart at hdata
    unfold Superblock.numMaps
    omega
  have hfirst : s.superb.InBitmap s.superb.bitmapStart := ⟨Nat.le_refl _, by omega⟩
  rw [Img.block_write]
  funext b
  by_cases hb : s.superb.InBitmap b
  · rw [view_of_inBitmap hb]
    by_cases he : b = s.superb.bitmapStart
    · rw [he, update_self, Nat.sub_self, Nat.mul_zero, Nat.sub_zero]
    · have hge := hb.1
      rw [update_of_ne he, h.bitmap b hb, show s.freeBlock - 4096 * (b - s.superb.bitmapStart) =
        0 by omega]
      rfl
  · rw [update_of_ne (by rintro rfl; exact hb hfirst), view_of_not_inBitmap hb]

/-- **The size of the root directory is rounded up, and the bitmap is written.** -/
theorem finish_spec (h : Laid s (layout files)) :
    wp (do
        let ino ← readInode 1
        writeInode 1 { ino with size := roundUp ino.size }
        let s ← read
        blockAlloc s.freeBlock)
      (fun _ s' => Done files s s')
        (fun e _ => e = .exit ∧ 4096 < need s.superb (layout files)) s := by
  have hroot := h.marks.layout.root
  have hhigh := h.marks.high
  have hsmall := h.marks.size_le
  have hcount := h.count
  rw [wp_bind, h.marks.wp_readInode hroot, wp_bind, h.marks.wp_writeInode hroot]
  show wp (do let s ← read; blockAlloc s.freeBlock) _ _ (s.putInode 1 s.rounded)
  have hmarks := h.marks.putInode hroot s.rounded
  have hview := h.marks.view_putInode (i := 1) s.rounded
  have hstart : s.superb.bitmapStart < s.superb.size := by
    have h1 := h.marks.layout.inodes
    have h2 := h.marks.layout.data
    unfold Superblock.dataStart at h2
    omega
  simp only [blockAlloc, wp_bind, wp_read, wp_ite, wp_halt]
  by_cases hbig : 4096 < s.freeBlock
  · rw [if_pos ⟨hbig, show s.freeBlock < 2 ^ 31 by omega⟩]
    exact ⟨trivial, by omega⟩
  · have hle : s.freeBlock ≤ 4096 := Nat.not_lt.mp hbig
    rw [if_neg fun hc => hbig hc.1, if_pos (show (s.putInode 1 s.rounded).freeBlock < 2 ^ 31 from
      show s.freeBlock < 2 ^ 31 by omega)]
    rw [hmarks.wp_writeSector (b := (s.putInode 1 s.rounded).superb.bitmapStart) hstart]
    refine ⟨h, rfl, rfl, rfl, by omega, ?_⟩
    rw [← hview]
    exact hmarks.write_bitmap hle

theorem le_cost (n : ℕ) : min n 16518 ≤ cost n := by
  unfold cost
  omega

theorem cost_root_le (sb : Superblock) (files : List Input) :
    cost (blocks (rootSize files.length)) ≤ need sb (layout files) := by
  obtain ⟨c, hc, hlen⟩ := layout_root files
  have hset := need_set sb hc ⟨0, []⟩
  have hempty : cost (blocks ([] : List UInt8).length) = 0 := by simp [cost, blocks]
  rw [hlen, hempty] at hset
  omega

theorem Laid.filled {T : List Content} {i : ℕ} (h : Laid s T) (hi : i < s.superb.numInodes) :
    Filled s.view.disk (s.table i) (s.view.inode i).size := by
  rw [Img.table_of_lt hi]
  by_cases hout : i = 0 ∨ T.length < i
  · rw [h.rest i hi hout]
    exact ⟨Nat.zero_le _, fun q hq => absurd hq (Nat.not_lt_zero q)⟩
  · obtain ⟨k, rfl⟩ : ∃ k, i = k + 1 := ⟨i - 1, by omega⟩
    have hk : T[k]? = some T[k] := List.getElem?_eq_getElem (by omega)
    have hold := h.holds k _ hk
    have hsize : (s.view.inode (k + 1)).size = T[k].data.length := by
      rw [hold.inode]
      rfl
    rw [hsize]
    exact hold.filled

theorem Done.rounded_fits {s' : Img} (h : Done files s s') : s.rounded.Fits := by
  obtain ⟨c, hc, hlen⟩ := layout_root files
  have hold := h.laid.holds 0 c hc
  have hle := hold.le
  have hfits := s.view.inode_fits 1
  refine ⟨hfits.type, hfits.major, hfits.minor, hfits.uid, hfits.gid, hfits.numLinks, hfits.atime,
    hfits.mtime, hfits.ctime, ?_, hfits.addrs, hfits.rest⟩
  have hsize : s.rounded.size = roundUp c.data.length := by
    show roundUp (s.view.inode (0 + 1)).size = _
    rw [hold.inode]
    rfl
  rw [hsize]
  unfold roundUp
  omega

theorem need_layout (sb : Superblock) (files : List Input) : need sb (layout files) =
    sb.dataStart + cost (blocks (rootSize files.length)) +
      (files.map fun f => cost (blocks f.data.length)).sum := by
  obtain ⟨c, hc, hlen⟩ := layout_root files
  obtain rfl := Option.some.inj hc
  unfold need layout
  rw [List.map_cons, List.sum_cons, hlen, List.map_map, Nat.add_assoc]
  rfl

/-- More files need more blocks. -/
theorem need_append_le (sb : Superblock) (xs ys : List Input) :
    need sb (layout xs) ≤ need sb (layout (xs ++ ys)) := by
  rw [need_layout, need_layout, List.map_append, List.sum_append, List.length_append]
  have hmono : cost (blocks (rootSize xs.length)) ≤
    cost (blocks (rootSize (xs.length + ys.length))) :=
    cost_mono (by unfold blocks rootSize; omega)
  omega

theorem need_empty_le (sb : Superblock) (pre : List Input) (f : Input) :
    need sb (layout (pre ++ [f.empty])) ≤ need sb (layout (pre ++ [f])) := by
  rw [need_layout, need_layout, List.map_append, List.map_append, List.sum_append, List.sum_append,
    List.length_append, List.length_append]
  have hempty : cost (blocks f.empty.data.length) = 0 := by simp [cost, blocks, Input.empty]
  simp only [List.map_singleton, List.sum_singleton, List.length_singleton, hempty]
  omega

/-- How the program ends early. -/
inductive Early (sb : Superblock) (files : List Input) : Stop → Prop where
  | usage (h : files = []) : Early sb files .exit
  | root (h : sb.size < need sb (layout [])) : Early sb files .exit
  | file {e : Stop} (h : StopsIn sb [] files e) : Early sb files e
  | bitmap (hroot : rootSize files.length ≤ 16518 * 512)
      (hdata : ∀ f ∈ files, f.data.length ≤ 16518 * 512)
      (h : 4096 < need sb (layout files)) : Early sb files .exit

/-- **The root directory gets its first two entries.** -/
theorem root_spec (h : Laid s [⟨0x4000, []⟩]) :
    wp (do inodeAppend 1 (putDirent 1 dot); inodeAppend 1 (putDirent 1 dotdot))
      (fun _ s' => Laid s' (layout []) ∧ s'.superb = s.superb)
      (fun e _ => e = .exit ∧ s.superb.size < need s.superb (layout [])) s := by
  have hlayout : [(⟨0x4000, putDirent 1 dot ++ putDirent 1 dotdot⟩ : Content)] = layout [] := by
    unfold layout entries
    simp
  have hstop : ∀ e, Stops s.superb [⟨0x4000, putDirent 1 dot ++ putDirent 1 dotdot⟩]
      (putDirent 1 dot ++ putDirent 1 dotdot).length e →
        e = .exit ∧ s.superb.size < need s.superb (layout []) := by
    rintro e (⟨he, hlt⟩ | ⟨-, hlong, -⟩)
    · rw [hlayout] at hlt
      exact ⟨he, hlt⟩
    · rw [List.length_append, length_putDirent, length_putDirent] at hlong
      omega
  have hdot := inodeAppend_spec (k := 0) (putDirent 1 dot) h rfl
  rw [wp_bind]
  refine hdot.mono (fun _ s₁ hs => ?_) fun e _ he => hstop e ?_
  · obtain ⟨h₁, hsb₁⟩ := hs
    have hdotdot := inodeAppend_spec (k := 0) (putDirent 1 dotdot) h₁ rfl
    rw [hsb₁] at hdotdot
    refine hdotdot.mono (fun _ s₂ hs => ⟨?_, hs.2⟩) fun e _ he => hstop e he
    rw [← hlayout]
    exact hs.1
  · exact he.longer (T := [⟨0x4000, []⟩]) (k := 0) rfl (by simp)

/-- Without a file nothing is done. -/
theorem main_nil : wp (main []) (fun _ _ => False) (fun e _ => e = .exit) (start sectors disk) := by
  rw [main, if_pos rfl]
  exact rfl

/-- **What the program does.** -/
theorem main_spec (hfits : Fits sectors files) :
    wp (main files) (fun _ s' => ∃ s, Done files s s' ∧ s.superb = superblock sectors)
      (fun e _ => Early (superblock sectors) files e) (start sectors disk) := by
  have hsize : (superblock sectors).size + partitionOffset = sectors :=
    Nat.sub_add_cancel hfits.offset
  have hone : 1 < (superblock sectors).size := by
    have := hfits.le_size
    show 1 < sectors - partitionOffset
    omega
  have hgeo : Geometry { start sectors disk with
      superb := superblock sectors, freeBlock := (superblock sectors).dataStart } :=
        ⟨hsize.symm, hfits.small, hfits.layout⟩
  by_cases hne : files = []
  · subst hne
    exact main_nil.mono (fun _ _ => False.elim) fun e _ he => he ▸ .usage rfl
  rw [main, if_neg hne]
  beta_reduce
  rw [wp_bind, wp_read]
  simp only [show (start sectors disk).sectors = sectors from rfl, hfits.cofsSize]
  rw [wp_bind, wp_modify, wp_bind, hgeo.wp_readSector hone, ← bind_assoc, wp_bind]
  refine (clear_spec hfits rfl rfl rfl rfl rfl).mono (fun _ s₁ hs => ?_) fun _ _ => False.elim
  obtain ⟨h₁, hsb₁⟩ := hs
  rw [wp_bind]
  refine (inodeAlloc_spec h₁ (show 0 + 1 < _ by rw [hsb₁]; exact hfits.root) (by decide)).mono
    (fun r s₂ hs => ?_) fun _ _ => False.elim
  obtain ⟨rfl, h₂, hsb₂⟩ := hs
  rw [hsb₁] at hsb₂
  simp only [List.length_nil, Nat.zero_add, ne_eq, not_true_eq_false, if_false]
  rw [← bind_assoc, wp_bind]
  refine (root_spec h₂).mono (fun _ s₃ hs => ?_) fun e _ he => ?_
  · obtain ⟨h₃, hsb₃⟩ := hs
    rw [hsb₂] at hsb₃
    rw [wp_bind]
    refine (addFiles_spec h₃ (hsb₃ ▸ hfits.inodes)).mono (fun _ s₄ hs => ?_) fun e _ he => ?_
    · obtain ⟨h₄, hsb₄⟩ := hs
      rw [hsb₃] at hsb₄
      rw [List.nil_append] at h₄
      refine (finish_spec h₄).mono (fun _ s' hs => ⟨s₄, hs, hsb₄⟩) fun e _ he => ?_
      obtain ⟨rfl, hlt⟩ := he
      rw [hsb₄] at hlt
      exact .bitmap h₄.rootSize_le (fun f hf => h₄.data_le hf) hlt
    · rw [hsb₃] at he
      exact .file he
  · obtain ⟨rfl, hlt⟩ := he
    rw [hsb₂] at hlt
    exact .root hlt

/-- An empty file. -/
def emptyFile : Input := ⟨⟨[120], by decide⟩, []⟩

/-- A file of three bytes. -/
def threeBytes : Input := ⟨⟨[121], by decide⟩, [1, 2, 3]⟩

/-- A partition of 200 blocks. -/
theorem fits_small (h : files.length < 24) : Fits (partitionOffset + 200) files := by
  have hsb : superblock (partitionOffset + 200) = .mkcofs 200 := by
    unfold superblock
    rw [Nat.add_sub_cancel_left]
  have hnum : (superblock (partitionOffset + 200)).numInodes = 25 := by
    rw [hsb]
    rfl
  refine ⟨by unfold partitionOffset; decide, by rw [hnum]; decide, ?_⟩
  rintro a f b rfl -
  rw [List.length_append, List.length_cons] at h
  rw [hnum, List.nil_append]
  omega

end

end Cosiris.Mkcofs
