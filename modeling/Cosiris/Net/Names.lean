import Cosiris.Net.Dns

/-!
# Names in messages

`dns2host_name` follows labels and pointers. It comes to an end within the message and
within its buffer exactly when they are a finite chain inside the message and every label
finds room: the buffer, of 32 bytes at first, is doubled at most once for a label.
-/

namespace Cosiris.Dns

/-! ### Chains of labels and pointers -/

/-- What the decoder finds: a label, or a pointer to an offset. -/
inductive Item
  | label (bs : List UInt8)
  | pointer (o : ℕ)

/-- A label at index `p` of a message: a length and as many bytes. -/
structure LabelAt (m : Msg) (p : ℕ) (bs : List UInt8) : Prop where
  inside : p + bs.length < m.len
  ne_nil : bs ≠ []
  length : (m.data p).toNat = bs.length
  ne_pointer : m.data p ≠ 0xc0
  bytes : getBytes m.data (p + 1) bs.length = bs

/-- A pointer at index `p` of a message. Its offset is one byte, and not negative as a `char`. -/
structure PointerAt (m : Msg) (p o : ℕ) : Prop where
  inside : p + 1 < m.len
  mark : m.data p = 0xc0
  offset : (m.data (p + 1)).toNat = o
  positive : o < 128

/-- The items from index `p` on, one after the other, lead to index `q`. -/
def Chain (m : Msg) : ℕ → List Item → ℕ → Prop
  | p, [], q => p = q
  | p, .label bs :: is, q => LabelAt m p bs ∧ Chain m (p + 1 + bs.length) is q
  | p, .pointer o :: is, q => PointerAt m p o ∧ Chain m o is q

/-! ### Room for the text -/

/-- The buffer: whether a dot comes before the next item, the length of the text and the size. -/
structure Text where
  dot : Bool
  len : ℕ
  size : ℕ

namespace Text

/-- Where the text of the next label starts. -/
def start (t : Text) : ℕ := t.len + t.dot.toNat

/-- A label of `n` bytes is too long for the buffer. -/
def Asks (t : Text) (n : ℕ) : Prop := t.size ≤ t.start + n + 1

instance (t : Text) (n : ℕ) : Decidable (t.Asks n) := inferInstanceAs (Decidable (_ ≤ _))

/-- The size of the buffer for a label of `n` bytes. -/
def grown (t : Text) (n : ℕ) : ℕ := if t.Asks n then t.size * 2 else t.size

/-- The buffer after an item. -/
def add (t : Text) : Item → Text
  | .label bs => ⟨true, t.start + bs.length, t.grown bs.length⟩
  | .pointer _ => ⟨false, t.start, t.size⟩

/-- An item finds room. -/
def Fits (h : Heap) (t : Text) : Item → Prop
  | .label bs => (t.Asks bs.length → h.gives (t.size * 2)) ∧ t.start + bs.length < t.grown bs.length
  | .pointer _ => True

/-- Every item of a list finds room. -/
def Holds (h : Heap) : Text → List Item → Prop
  | _, [] => True
  | t, i :: is => t.Fits h i ∧ Holds h (t.add i) is

/-- The decoder stops at index `q`: at a zero byte, with room for the final NUL, or at a label for
which there is no memory. -/
def Stops (h : Heap) (m : Msg) (q : ℕ) (t : Text) : Prop :=
  q < m.len ∧ (m.data q = 0 ∧ t.len < t.size ∨
    m.data q ≠ 0 ∧ m.data q ≠ 0xc0 ∧ t.Asks (m.data q).toNat ∧ ¬h.gives (t.size * 2))

end Text

/-- The first buffer. -/
def emptyText : Text := ⟨false, 0, 32⟩

/-- The items from index `p` on lead to an end. -/
def Ends (h : Heap) (m : Msg) (p : ℕ) (t : Text) : Prop :=
  ∃ items q, Chain m p items q ∧ t.Holds h items ∧ (items.foldl Text.add t).Stops h m q

/-- The text of a list of items. -/
def render : Bool → List Item → List UInt8
  | _, [] => []
  | dot, .label bs :: is => List.replicate dot.toNat 46 ++ bs ++ render true is
  | dot, .pointer _ :: is => List.replicate dot.toNat 46 ++ render false is

/-! ### One step of the decoder -/

section

variable {h : Heap} {m : Msg} {p k size fuel : ℕ} {n : UInt8} {buf bs : List UInt8} {t : Text}

theorem rd_of_lt (hp : p < m.len) : m.rd p = .ok (m.data p) := by
  have hin : (0 : ℤ) ≤ p ∧ (p : ℤ) < m.len := by omega
  rw [Msg.rd, if_pos hin, Int.toNat_natCast]

theorem rd_of_ge (hp : m.len ≤ p) : m.rd p = .error .read := by
  have hout : ¬((0 : ℤ) ≤ p ∧ (p : ℤ) < m.len) := by omega
  rw [Msg.rd, if_neg hout]

/-- The copy of a label stops where the buffer is full. -/
theorem copyLabel_eq (hp : p ≤ m.len) : copyLabel m size k p buf =
    if p + min k (size - buf.length) ≤ m.len then
      .ok ((p + min k (size - buf.length) : ℕ),
        buf ++ getBytes m.data p (min k (size - buf.length)))
    else .error .read := by
  induction k generalizing p buf with
  | zero =>
    rw [Nat.zero_min, Nat.add_zero, if_pos hp]
    simp [copyLabel, getBytes]
  | succ k ih =>
    unfold copyLabel
    by_cases hroom : buf.length < size
    · rw [if_pos hroom]
      rcases Nat.lt_or_ge p m.len with hlt | hge
      · have hmin : min (k + 1) (size - buf.length) =
          1 + min k (size - (buf ++ [m.data p]).length) := by
          simp only [List.length_append, List.length_singleton]
          omega
        have hbytes : getBytes m.data p 1 = [m.data p] := rfl
        have hih := @ih (p + 1) (buf ++ [m.data p]) hlt
        rw [Nat.cast_succ] at hih
        rw [rd_of_lt hlt, hmin, getBytes_add, hbytes, ← List.append_assoc, ← Nat.add_assoc]
        exact hih
      · have hmin : ¬p + min (k + 1) (size - buf.length) ≤ m.len := by omega
        rw [rd_of_ge hge, if_neg hmin]
        rfl
    · have hmin : min (k + 1) (size - buf.length) = 0 := by omega
      rw [if_neg hroom, hmin, Nat.add_zero, if_pos hp]
      simp [getBytes, pure, Except.pure]

/-- The dot before an item that follows a label. -/
def dotted (n : UInt8) (buf : List UInt8) : List UInt8 :=
  buf ++ List.replicate (decide (0 < n)).toNat 46

/-- The buffer of a run. -/
def textOf (n : UInt8) (buf : List UInt8) (size : ℕ) : Text := ⟨decide (0 < n), buf.length, size⟩

theorem length_dotted (size : ℕ) : (dotted n buf).length = (textOf n buf size).start := by
  simp [dotted, textOf, Text.start]

theorem pushDot_eq (hroom : 0 < n → buf.length < size) :
    pushDot size n buf = .ok (dotted n buf) := by
  unfold pushDot dotted
  by_cases hn : 0 < n
  · simp [hn, push, hroom hn]
  · simp [hn]

theorem loop_zero (hp : p < m.len) (hc : m.data p = 0) :
    dns2hostLoop h m (fuel + 1) p n buf size =
      if buf.length < size then .ok (some buf) else .error .write := by
  unfold dns2hostLoop push
  rw [rd_of_lt hp, hc]
  by_cases hroom : buf.length < size
  · simp [hroom, bind, Except.bind, pure, Except.pure]
  · simp [hroom, bind, Except.bind]

theorem loop_pointer (hp : p < m.len) (hc : m.data p = 0xc0) (hroom : 0 < n → buf.length < size) :
    dns2hostLoop h m (fuel + 1) p n buf size =
      (m.rd (p + 1)).bind fun o => dns2hostLoop h m fuel o.toInt8.toInt 0 (dotted n buf) size := by
  have hlt : (p : ℤ) < m.len := by omega
  rw [dns2hostLoop, rd_of_lt hp, hc]
  simp [hlt, bind, Except.bind, pushDot_eq hroom]

theorem loop_label (hp : p < m.len) (h0 : m.data p ≠ 0) (hc : m.data p ≠ 0xc0)
    (hroom : 0 < n → buf.length < size) : dns2hostLoop h m (fuel + 1) p n buf size =
      if (textOf n buf size).Asks (m.data p).toNat ∧ ¬h.gives (size * 2) then .ok none
      else (copyLabel m ((textOf n buf size).grown (m.data p).toNat) (m.data p).toNat (p + 1)
        (dotted n buf)).bind fun r => dns2hostLoop h m fuel r.1 (m.data p) r.2
          ((textOf n buf size).grown (m.data p).toNat) := by
  have hlt : (p : ℤ) < m.len := by omega
  have hasks : ((m.data p).toNat : ℤ) ≥ size - (dotted n buf).length - 1 ↔
      (textOf n buf size).Asks (m.data p).toNat := by
    rw [length_dotted size]
    unfold Text.Asks
    show _ ↔ size ≤ _
    omega
  rw [dns2hostLoop, rd_of_lt hp]
  by_cases hask : (textOf n buf size).Asks (m.data p).toNat
  · have hgrown : (textOf n buf size).grown (m.data p).toNat = size * 2 := if_pos hask
    by_cases hgives : h.gives (size * 2)
    · simp [hlt, h0, hc, pushDot_eq hroom, hasks, hask, hgives, hgrown, bind, Except.bind]
    · simp [hlt, h0, hc, pushDot_eq hroom, hasks, hask, hgives, bind, Except.bind,
        pure, Except.pure]
  · have hgrown : (textOf n buf size).grown (m.data p).toNat = size := if_neg hask
    simp [hlt, h0, hc, pushDot_eq hroom, hasks, hask, hgrown, bind, Except.bind]

/-- A full buffer that a label filled has no room for what follows. -/
theorem loop_full (hn : 0 < n) (hfull : size ≤ buf.length) (r : Option (List UInt8)) (s : ℤ) :
    dns2hostLoop h m fuel s n buf size ≠ .ok r := by
  have hroom : ¬buf.length < size := by omega
  cases fuel with
  | zero => simp [dns2hostLoop]
  | succ fuel =>
    unfold dns2hostLoop
    cases hrd : m.rd s with
    | error e => simp [bind, Except.bind]
    | ok c =>
        by_cases hc : c ≠ 0 ∧ s < m.len <;> simp [bind, Except.bind, hc, hn, pushDot, push, hroom]

theorem textOf_label (hn : 0 < m.data p) : textOf (m.data p) (dotted n buf ++ bs)
    ((textOf n buf size).grown bs.length) = (textOf n buf size).add (.label bs) := by
  simp [textOf, hn, Text.add, length_dotted size]

theorem textOf_pointer (o : ℕ) :
    textOf 0 (dotted n buf) size = (textOf n buf size).add (.pointer o) := by
  simp [textOf, Text.add, length_dotted size]

theorem length_dotted_label (hfit : (textOf n buf size).Fits h (.label bs)) :
    (dotted n buf ++ bs).length < (textOf n buf size).grown bs.length := by
  rw [List.length_append, length_dotted size]
  exact hfit.2

/-! ### Whole chains -/

variable {items : List Item} {q o : ℕ}

theorem LabelAt.pos (hl : LabelAt m p bs) : 0 < m.data p := by
  have hpos := List.length_pos_iff.mpr hl.ne_nil
  rw [← hl.length] at hpos
  exact hpos

theorem step_label (hl : LabelAt m p bs) (hfit : (textOf n buf size).Fits h (.label bs))
    (hroom : 0 < n → buf.length < size) : dns2hostLoop h m (fuel + 1) p n buf size =
      dns2hostLoop h m fuel (p + 1 + bs.length : ℕ) (m.data p) (dotted n buf ++ bs)
        ((textOf n buf size).grown bs.length) := by
  have hin := hl.inside
  have hp : p < m.len := by omega
  have h0 : m.data p ≠ 0 := UInt8.pos_iff_ne_zero.mp hl.pos
  obtain ⟨hgives, hlt⟩ := hfit
  have hasks : ¬((textOf n buf size).Asks bs.length ∧ ¬h.gives (size * 2)) := fun ha =>
    ha.2 (hgives ha.1)
  have hmin : min bs.length ((textOf n buf size).grown bs.length - (dotted n buf).length) =
    bs.length := by
    rw [length_dotted size]
    omega
  have hcopy :=
    @copyLabel_eq m (p + 1) bs.length ((textOf n buf size).grown bs.length) (dotted n buf) hp
  rw [hmin, if_pos (by omega), hl.bytes] at hcopy
  rw [loop_label hp h0 hl.ne_pointer hroom, hl.length, if_neg hasks, ← Nat.cast_succ, hcopy]
  rfl

theorem signed_eq (o : UInt8) :
    o.toInt8.toInt = if o.toNat < 128 then (o.toNat : ℤ) else o.toNat - 256 := by
  have hcond : 2 * o.toNat < 2 ^ 8 ↔ o.toNat < 128 := by omega
  show o.toBitVec.toInt = _
  rw [BitVec.toInt_eq_toNat_cond, UInt8.toNat_toBitVec]
  simp only [hcond]
  rfl

theorem step_pointer (hp : PointerAt m p o) (hroom : 0 < n → buf.length < size) :
    dns2hostLoop h m (fuel + 1) p n buf size = dns2hostLoop h m fuel o 0 (dotted n buf) size := by
  have hin := hp.inside
  have hoffset : (m.data (p + 1)).toNat < 128 := by
    rw [hp.offset]
    exact hp.positive
  have hrd := rd_of_lt hin
  rw [Nat.cast_succ] at hrd
  rw [loop_pointer (by omega) hp.mark hroom, hrd]
  show dns2hostLoop h m fuel (m.data (p + 1)).toInt8.toInt 0 (dotted n buf) size = _
  rw [signed_eq, if_pos hoffset, hp.offset]

/-- The decoder follows a chain whose labels find room. -/
theorem loop_chain (hc : Chain m p items q) (hfit : (textOf n buf size).Holds h items)
    (hroom : 0 < n → buf.length < size) :
    ∃ n' size', textOf n' (buf ++ render (decide (0 < n)) items) size' =
        items.foldl Text.add (textOf n buf size) ∧
      (0 < n' → (buf ++ render (decide (0 < n)) items).length < size') ∧
      ∀ fuel, dns2hostLoop h m (fuel + items.length) p n buf size =
        dns2hostLoop h m fuel q n' (buf ++ render (decide (0 < n)) items) size' := by
  induction items generalizing p n buf size with
  | nil =>
    obtain rfl : p = q := hc
    rw [render, List.append_nil]
    exact ⟨n, size, rfl, hroom, fun fuel => rfl⟩
  | cons i items ih =>
    obtain ⟨hfirst, hrest⟩ := hfit
    cases i with
    | label bs =>
      obtain ⟨hl, hc⟩ := hc
      have hn := hl.pos
      have htext := @textOf_label m p size n buf bs hn
      have hrender : dotted n buf ++ bs ++ render true items =
        buf ++ render (decide (0 < n)) (.label bs :: items) := by
        simp [dotted, render]
      rw [← htext] at hrest
      obtain ⟨n', size', h1, h2, h3⟩ := ih hc hrest fun _ => length_dotted_label hfirst
      have hd : decide (0 < m.data p) = true := decide_eq_true hn
      rw [hd, hrender, htext] at h1
      rw [hd, hrender] at h2 h3
      refine ⟨n', size', h1, h2, fun fuel => ?_⟩
      rw [← h3, List.length_cons, ← Nat.add_assoc, step_label hl hfirst hroom]
    | pointer o =>
      obtain ⟨hp, hc⟩ := hc
      have htext := @textOf_pointer size n buf o
      have hrender : dotted n buf ++ render false items =
        buf ++ render (decide (0 < n)) (.pointer o :: items) := by
        simp [dotted, render]
      rw [← htext] at hrest
      obtain ⟨n', size', h1, h2, h3⟩ := ih hc hrest fun h => absurd h (by decide)
      have hd : decide ((0 : UInt8) < 0) = false := by decide
      rw [hd, hrender, htext] at h1
      rw [hd, hrender] at h2 h3
      refine ⟨n', size', h1, h2, fun fuel => ?_⟩
      rw [← h3, List.length_cons, ← Nat.add_assoc, step_pointer hp hroom]

theorem loop_stops (hstop : (textOf n buf size).Stops h m q) (hroom : 0 < n → buf.length < size) :
    ∃ r, dns2hostLoop h m (fuel + 1) q n buf size = .ok r := by
  obtain ⟨hq, ⟨h0, hlt⟩ | ⟨h0, hc, hasks, hgives⟩⟩ := hstop
  · exact ⟨some buf, (loop_zero hq h0).trans (if_pos hlt)⟩
  · exact ⟨none, by rw [loop_label hq h0 hc hroom, if_pos ⟨hasks, hgives⟩]⟩

theorem Ends.cons {i : Item} {p' : ℕ} (hend : Ends h m p' (t.add i)) (hi : Chain m p [i] p')
    (hfit : t.Fits h i) : Ends h m p t := by
  obtain ⟨items, q, hc, hholds, hstops⟩ := hend
  refine ⟨i :: items, q, ?_, ⟨hfit, hholds⟩, hstops⟩
  cases i with
  | label bs =>
    obtain ⟨hl, rfl⟩ := hi
    exact ⟨hl, hc⟩
  | pointer o =>
    obtain ⟨hp, rfl⟩ := hi
    exact ⟨hp, hc⟩

theorem loop_negative {s : ℤ} (hs : s < 0) (r : Option (List UInt8)) :
    dns2hostLoop h m fuel s n buf size ≠ .ok r := by
  have hout : ¬(0 ≤ s ∧ s < m.len) := by omega
  cases fuel with
  | zero => simp [dns2hostLoop]
  | succ fuel => simp [dns2hostLoop, Msg.rd, hout, bind, Except.bind]

/-- The label of a run that gives a result lies in the message and finds room. -/
theorem room_of_loop {r : Option (List UInt8)}
    (hrun : dns2hostLoop h m (fuel + 1) p n buf size = .ok r) (hp : p < m.len) (h0 : m.data p ≠ 0)
    (hc : m.data p ≠ 0xc0) (hroom : 0 < n → buf.length < size)
    (hasks : ¬((textOf n buf size).Asks (m.data p).toNat ∧ ¬h.gives (size * 2))) :
    p + (m.data p).toNat < m.len ∧
      (textOf n buf size).start + (m.data p).toNat <
        (textOf n buf size).grown (m.data p).toNat := by
  rw [loop_label hp h0 hc hroom, if_neg hasks, ← Nat.cast_succ, copyLabel_eq (by omega),
    length_dotted size] at hrun
  by_cases hin : p + 1 + min (m.data p).toNat ((textOf n buf size).grown (m.data p).toNat -
      (textOf n buf size).start) ≤ m.len
  · rw [if_pos hin] at hrun
    by_contra hno
    -- what is copied of the label fills the buffer
    refine absurd hrun (loop_full (UInt8.pos_iff_ne_zero.mpr h0) ?_ r _)
    rw [List.length_append, length_getBytes, length_dotted size]
    omega
  · rw [if_neg hin] at hrun
    cases hrun

/-- A run that gives a result follows a chain to its end. -/
theorem ends_of_loop {r : Option (List UInt8)} (hrun : dns2hostLoop h m fuel p n buf size = .ok r)
    (hroom : 0 < n → buf.length < size) : Ends h m p (textOf n buf size) := by
  induction fuel generalizing p n buf size with
  | zero => cases hrun
  | succ fuel ih =>
    have hp : p < m.len := by
      by_contra hge
      rw [dns2hostLoop, rd_of_ge (by omega)] at hrun
      cases hrun
    by_cases h0 : m.data p = 0
    · rw [loop_zero hp h0] at hrun
      by_cases hlt : buf.length < size
      · exact ⟨[], p, rfl, trivial, hp, .inl ⟨h0, hlt⟩⟩
      · rw [if_neg hlt] at hrun
        cases hrun
    by_cases hc : m.data p = 0xc0
    · rw [loop_pointer hp hc hroom] at hrun
      rcases Nat.lt_or_ge (p + 1) m.len with hin | hout
      · have hrd := rd_of_lt hin
        rw [Nat.cast_succ] at hrd
        rw [hrd] at hrun
        replace hrun : dns2hostLoop h m fuel (m.data (p + 1)).toInt8.toInt 0 (dotted n buf) size =
          .ok r := hrun
        by_cases hpos : (m.data (p + 1)).toNat < 128
        · rw [signed_eq, if_pos hpos] at hrun
          have hend := ih hrun fun h => absurd h (by decide)
          rw [textOf_pointer (m.data (p + 1)).toNat] at hend
          exact hend.cons ⟨⟨hin, hc, rfl, hpos⟩, rfl⟩ trivial
        · rw [signed_eq, if_neg hpos] at hrun
          have hlt := (m.data (p + 1)).toNat_lt
          exact absurd hrun (loop_negative (by omega) r)
      · have hrd := rd_of_ge hout
        rw [Nat.cast_succ] at hrd
        rw [hrd] at hrun
        cases hrun
    · by_cases hasks : (textOf n buf size).Asks (m.data p).toNat ∧ ¬h.gives (size * 2)
      · exact ⟨[], p, rfl, trivial, hp, .inr ⟨h0, hc, hasks⟩⟩
      · have hn : 0 < m.data p := UInt8.pos_iff_ne_zero.mpr h0
        obtain ⟨hin, hfit⟩ := room_of_loop hrun hp h0 hc hroom hasks
        obtain ⟨bs, hbs⟩ : ∃ bs, getBytes m.data (p + 1) (m.data p).toNat = bs := ⟨_, rfl⟩
        have hlen : (m.data p).toNat = bs.length := by rw [← hbs, length_getBytes]
        have hne : bs ≠ [] := List.ne_nil_of_length_pos (hlen ▸ hn)
        have hlabel : LabelAt m p bs := ⟨by omega, hne, hlen, hc, by rw [← hlen, hbs]⟩
        rw [hlen] at hasks hfit
        have hfits : (textOf n buf size).Fits h (.label bs) :=
          ⟨fun ha => by_contra fun hg => hasks ⟨ha, hg⟩, hfit⟩
        rw [step_label hlabel hfits hroom] at hrun
        have hend := ih hrun fun _ => length_dotted_label hfits
        rw [textOf_label hn] at hend
        exact hend.cons ⟨hlabel, rfl⟩ hfits

/-- A label finds room in a run that gives a name. -/
theorem fits_of_loop {r : List UInt8} (hl : LabelAt m p bs) (hroom : 0 < n → buf.length < size)
    (hrun : dns2hostLoop h m (fuel + 1) p n buf size = .ok (some r)) :
    (textOf n buf size).Fits h (.label bs) := by
  have hin := hl.inside
  have h0 : m.data p ≠ 0 := UInt8.pos_iff_ne_zero.mp hl.pos
  have hasks : ¬((textOf n buf size).Asks (m.data p).toNat ∧ ¬h.gives (size * 2)) := fun ha => by
    rw [loop_label (by omega) h0 hl.ne_pointer hroom, if_pos ha] at hrun
    cases hrun
  obtain ⟨-, hfit⟩ := room_of_loop hrun (by omega) h0 hl.ne_pointer hroom hasks
  rw [hl.length] at hasks hfit
  exact ⟨fun ha => by_contra fun hg => hasks ⟨ha, hg⟩, hfit⟩

/-- Every label of a chain finds room in a run that gives a name. -/
theorem holds_of_loop {r : List UInt8} (hc : Chain m p items q)
    (hrun : dns2hostLoop h m fuel p n buf size = .ok (some r)) (hroom : 0 < n → buf.length < size) :
    (textOf n buf size).Holds h items := by
  induction items generalizing p n buf size fuel with
  | nil => trivial
  | cons i items ih =>
    cases fuel with
    | zero => cases hrun
    | succ fuel =>
      cases i with
      | label bs =>
        obtain ⟨hl, hc⟩ := hc
        have hfits := fits_of_loop hl hroom hrun
        rw [step_label hl hfits hroom] at hrun
        have hrest := ih hc hrun fun _ => length_dotted_label hfits
        rw [textOf_label hl.pos] at hrest
        exact ⟨hfits, hrest⟩
      | pointer o =>
        obtain ⟨hp, hc⟩ := hc
        rw [step_pointer hp hroom] at hrun
        have hrest := ih hc hrun fun h => absurd h (by decide)
        rw [textOf_pointer o] at hrest
        exact ⟨trivial, hrest⟩

end

/-! ### Totality -/

/-- Decoding a name comes to an end within the message and within the buffer. -/
def Total (h : Heap) (m : Msg) (s : ℕ) : Prop := ∃ fuel r, dns2hostName h m fuel s = .ok r

section

variable {h : Heap} {m : Msg} {s fuel : ℕ} {r : Option (List UInt8)}

/-- A decoding that comes to an end has followed a chain. -/
theorem ends_of_name (hrun : dns2hostName h m fuel s = .ok r) :
    ¬h.gives 32 ∨ Ends h m s emptyText := by
  by_cases hgives : h.gives 32
  · rw [dns2hostName, if_pos hgives] at hrun
    exact .inr (ends_of_loop hrun fun h => absurd h (by decide))
  · exact .inl hgives

/-- A chain that ends is decoded, with one round for each of its items and one for its end. -/
theorem exists_name (hends : ¬h.gives 32 ∨ Ends h m s emptyText) :
    ∃ fuel r, dns2hostName h m fuel s = .ok r := by
  by_cases hgives : h.gives 32
  · obtain ⟨items, q, hc, hholds, hstops⟩ := hends.resolve_left (not_not_intro hgives)
    have hroom : (0 : UInt8) < 0 → ([] : List UInt8).length < 32 := fun h => absurd h (by decide)
    obtain ⟨n', size', htext, hroom', hloop⟩ := @loop_chain _ _ _ 32 0 [] _ _ hc hholds hroom
    obtain ⟨r, hr⟩ := @loop_stops _ _ _ 0 _ _ _ (htext ▸ hstops) hroom'
    refine ⟨1 + items.length, r, ?_⟩
    rw [dns2hostName, if_pos hgives]
    exact (hloop 1).trans hr
  · exact ⟨0, none, by rw [dns2hostName, if_neg hgives]⟩

end

/-- **When the decoder is total.** Either there is no memory for the first buffer, or labels and
pointers lead to an end. -/
theorem total_iff (h : Heap) (m : Msg) (s : ℕ) : Total h m s ↔ ¬h.gives 32 ∨ Ends h m s emptyText :=
  ⟨fun ⟨_, _, hrun⟩ => ends_of_name hrun, exists_name⟩

/-- A heap that has a block of any size below half of the address space. -/
def largeHeap : Heap := ⟨fun n => decide (n < 2 ^ 31), fun _ h => of_decide_eq_true h⟩

/-- A header with a pointer behind it that points to itself. -/
def selfPointer : Msg := ⟨fun q => if q = 12 then 0xc0 else 12, 14⟩

theorem not_total_selfPointer : ¬∀ (h : Heap) (m : Msg) (s : ℕ), s < m.len → Total h m s := by
  intro hall
  have hp : PointerAt selfPointer 12 12 := ⟨by decide, rfl, rfl, by decide⟩
  have hloop : ∀ fuel, dns2hostLoop largeHeap selfPointer fuel 12 0 [] 32 = .error .endless := by
    intro fuel
    induction fuel with
    | zero => rfl
    | succ fuel ih => exact (step_pointer hp fun h => absurd h (by decide)).trans ih
  obtain ⟨fuel, r, hr⟩ := hall largeHeap selfPointer 12 (by decide)
  have hgives : largeHeap.gives 32 = true := by decide
  rw [dns2hostName, if_pos hgives] at hr
  cases hr.symm.trans (hloop fuel)

end Cosiris.Dns
