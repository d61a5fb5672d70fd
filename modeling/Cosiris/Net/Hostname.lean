import Cosiris.Net.Names
import Mathlib.Data.List.Basic

/-!
# Host names and back

`host2dns_name` writes the labels of a host with their lengths before them.
`dns2host_name` gives the host back, unless its buffer has to be doubled from 32 to 64
bytes for a label that ends at index 64 or later.
-/

namespace Cosiris.Dns

/-- A host name of at most 255 characters. -/
structure HostName where
  labels : List (List UInt8)
  ne_nil : labels ≠ []
  label : ∀ l ∈ labels, 1 ≤ l.length ∧ l.length ≤ 63 ∧ ∀ c ∈ l, c ≠ 0 ∧ c ≠ 46
  length_le : ([46].intercalate labels).length ≤ 255

/-- The string. -/
def HostName.text (host : HostName) : List UInt8 := [46].intercalate host.labels

/-- The labels of a message, as items. -/
def HostName.items (host : HostName) : List Item := host.labels.map .label

/-- A label with its length before it. -/
def wireLabel (l : List UInt8) : List UInt8 := .ofNat l.length :: l

/-- The host in a message. -/
def HostName.wire (host : HostName) : List UInt8 := host.labels.flatMap wireLabel ++ [0]

/-! ### The encoder -/

section

variable {m : ℕ → UInt8} {cap p i size : ℕ} {l cs rest : List UInt8} {c : UInt8}

/-- The characters of a label. -/
theorem loop_chars (hl : ∀ c ∈ l, c ≠ 46) (hsize : l.length + 2 < size) (hp : p + l.length ≤ cap) :
    host2dnsLoop cap (l ++ rest) p i size m =
      host2dnsLoop cap rest (p + l.length) (i + l.length) (size - l.length) (putBytes m p l) := by
  induction l generalizing p i size m with
  | nil => rw [putBytes_nil]; rfl
  | cons c l ih =>
    obtain ⟨hc, hl⟩ := List.forall_mem_cons.mp hl
    rw [List.length_cons] at hsize hp
    have hput : putBytes (Function.update m p c) (p + 1) l = putBytes m p (c :: l) := by
      rw [← putBytes_singleton]
      exact @putBytes_append m _ [c] _
    have hstep : host2dnsLoop cap (c :: l ++ rest) p i size m =
        host2dnsLoop cap (l ++ rest) (p + 1) (i + 1) (size - 1) (Function.update m p c) := by
      have h2 : ¬size ≤ 2 := by omega
      have hin : p < cap := by omega
      rw [List.cons_append, host2dnsLoop]
      simp [h2, hc, store, hin, bind, Except.bind]
    rw [hstep, ih hl (by omega) (by omega), hput, List.length_cons]
    congr 1 <;> omega

/-- A label and the dot after it. -/
theorem loop_label_dot (hl : ∀ c ∈ l, c ≠ 46) (hsize : l.length + 2 < size)
    (hp : p + 1 + l.length ≤ cap) :
    host2dnsLoop cap (l ++ 46 :: rest) (p + 1) 0 size m =
      host2dnsLoop cap rest (p + (wireLabel l).length + 1) 0 (size - (l.length + 1))
        (putBytes m p (wireLabel l)) := by
  have h2 : ¬size - l.length ≤ 2 := by omega
  have hback : p + 1 + l.length - (0 + l.length + 1) = p := by omega
  have hin : p < cap := by omega
  rw [loop_chars hl hsize hp, host2dnsLoop]
  simp only [h2, hback, store, hin, if_true, if_false, bind, Except.bind, update_putBytes]
  rw [Nat.zero_add]
  congr 1
  simp [wireLabel]
  omega

/-- The last label. -/
theorem loop_label_end (hl : ∀ c ∈ l, c ≠ 46) (hsize : l.length + 2 < size)
    (hp : p + 1 + l.length ≤ cap) :
    host2dnsLoop cap l (p + 1) 0 size m =
      .ok (p + (wireLabel l).length, size - l.length, putBytes m p (wireLabel l)) := by
  have h2 : ¬size - l.length ≤ 2 := by omega
  have hback : p + 1 + l.length - (0 + l.length + 1) = p := by omega
  have hin : p < cap := by omega
  have hchars := @loop_chars m cap (p + 1) 0 size l [] hl hsize hp
  rw [List.append_nil] at hchars
  rw [hchars, host2dnsLoop]
  simp only [h2, hback, store, hin, if_true, if_false, bind, Except.bind, update_putBytes]
  simp [wireLabel, pure, Except.pure]
  omega

variable {labels : List (List UInt8)}

theorem intercalate_cons (h : labels ≠ []) :
    [46].intercalate (l :: labels) = l ++ 46 :: [46].intercalate labels := by
  obtain ⟨l', ls, rfl⟩ := List.exists_cons_of_ne_nil h
  rw [List.intercalate_cons_cons]
  simp

/-- There is one byte more than there are characters. -/
theorem length_flatMap_wireLabel (h : labels ≠ []) :
    (labels.flatMap wireLabel).length = ([46].intercalate labels).length + 1 := by
  induction labels with
  | nil => exact absurd rfl h
  | cons l labels ih =>
    by_cases hrest : labels = []
    · simp [hrest, wireLabel]
    · rw [intercalate_cons hrest, List.flatMap_cons, List.length_append, ih hrest]
      simp [wireLabel]
      omega

/-- The labels of a host. -/
theorem loop_labels (h : labels ≠ []) (hl : ∀ l ∈ labels, ∀ c ∈ l, c ≠ 46)
    (hsize : ([46].intercalate labels).length + 2 < size)
    (hp : p + 1 + ([46].intercalate labels).length ≤ cap) :
    host2dnsLoop cap ([46].intercalate labels) (p + 1) 0 size m =
      .ok (p + (labels.flatMap wireLabel).length, size - ([46].intercalate labels).length,
        putBytes m p (labels.flatMap wireLabel)) := by
  induction labels generalizing p size m with
  | nil => exact absurd rfl h
  | cons l labels ih =>
    obtain ⟨hfirst, hothers⟩ := List.forall_mem_cons.mp hl
    by_cases hrest : labels = []
    · subst hrest
      rw [List.intercalate_singleton] at hsize hp ⊢
      rw [loop_label_end hfirst hsize hp, List.flatMap_singleton]
    · rw [intercalate_cons hrest] at hsize hp ⊢
      rw [List.length_append, List.length_cons] at hsize hp ⊢
      have hwire : (wireLabel l).length = l.length + 1 := rfl
      rw [loop_label_dot hfirst (by omega) (by omega), ih hrest hothers (by omega) (by omega),
        putBytes_append, List.flatMap_cons, List.length_append, Nat.sub_sub, Nat.add_assoc]
      congr 4
      omega

end

/-- The encoder writes the labels with their lengths and a zero byte. -/
theorem host2dnsName_eq (host : HostName) (m : ℕ → UInt8) {size : ℕ}
    (hsize : host.text.length + 2 < size) :
    host2dnsName host.text m size =
      .ok (some (size - (host.text.length + 2)), putBytes m 0 host.wire) := by
  have hl : ∀ l ∈ host.labels, ∀ c ∈ l, c ≠ 46 := fun l hl c hc => ((host.label l hl).2.2 c hc).2
  have hlen := length_flatMap_wireLabel host.ne_nil
  have hsmall : ¬size ≤ host.text.length + 2 := by omega
  have hlast : 0 + (host.labels.flatMap wireLabel).length < size := by
    rw [hlen]
    show 0 + (host.text.length + 1) < size
    omega
  have hloop := @loop_labels m size 0 size host.labels host.ne_nil hl hsize (by
    show 0 + 1 + host.text.length ≤ size
    omega)
  have hzero : Function.update (putBytes m 0 (host.labels.flatMap wireLabel))
      (0 + (host.labels.flatMap wireLabel).length) 0 = putBytes m 0 host.wire := by
    rw [← putBytes_singleton, putBytes_append]
    rfl
  replace hloop : host2dnsLoop size host.text 1 0 size m = _ := hloop
  rw [host2dnsName, hloop]
  simp only [hsmall, if_false, bind, Except.bind, store, hlast, if_true, hzero]
  rw [Nat.sub_sub]
  rfl

/-- The number of bytes. -/
theorem HostName.length_wire (host : HostName) : host.wire.length = host.text.length + 2 := by
  rw [wire, List.length_append, length_flatMap_wireLabel host.ne_nil]
  rfl

/-! ### The decoder on what was encoded -/

section

variable {h : Heap} {msg : Msg} {p : ℕ} {l : List UInt8} {labels : List (List UInt8)} {t : Text}

/-- Lengths and labels are a chain. -/
theorem chain_labels (hl : ∀ l ∈ labels, 1 ≤ l.length ∧ l.length ≤ 63)
    (hin : p + (labels.flatMap wireLabel).length < msg.len)
    (hbytes : getBytes msg.data p (labels.flatMap wireLabel).length = labels.flatMap wireLabel) :
    Chain msg p (labels.map .label) (p + (labels.flatMap wireLabel).length) := by
  induction labels generalizing p with
  | nil => rfl
  | cons l labels ih =>
    obtain ⟨⟨hpos, hle⟩, hothers⟩ := List.forall_mem_cons.mp hl
    have hwire : (wireLabel l).length = 1 + l.length := Nat.add_comm ..
    rw [List.flatMap_cons, List.length_append] at hin hbytes ⊢
    rw [getBytes_add] at hbytes
    obtain ⟨hfirst, hrest⟩ := List.append_inj hbytes (length_getBytes ..)
    rw [hwire, getBytes_add] at hfirst
    rw [hwire] at hin hrest ⊢
    have hsplit : getBytes msg.data p 1 ++ getBytes msg.data (p + 1) l.length =
        [UInt8.ofNat l.length] ++ l := hfirst
    obtain ⟨hlen, hchars⟩ := List.append_inj hsplit rfl
    have hbyte : msg.data p = .ofNat l.length := List.singleton_inj.mp hlen
    have htoNat : (msg.data p).toNat = l.length := by
      rw [hbyte, UInt8.toNat_ofNat']
      omega
    refine ⟨⟨by omega, List.ne_nil_of_length_pos hpos, htoNat, fun hc => ?_, hchars⟩, ?_⟩
    · rw [hc] at htoNat
      have : (0xc0 : UInt8).toNat = 192 := rfl
      omega
    · rw [← Nat.add_assoc p, ← Nat.add_assoc p] at *
      exact ih hothers (by omega) hrest

theorem render_true : render true (labels.map .label) = labels.flatMap (46 :: ·) := by
  induction labels with
  | nil => rfl
  | cons l labels ih =>
    rw [List.map_cons, render, ih, List.flatMap_cons]
    rfl

theorem render_labels (hne : labels ≠ []) :
    render false (labels.map .label) = [46].intercalate labels := by
  have hrest : ∀ ls : List (List UInt8), ls ≠ [] →
    46 :: [46].intercalate ls = ls.flatMap (46 :: ·) := by
    intro ls hls
    induction ls with
    | nil => exact absurd rfl hls
    | cons l ls ih =>
      by_cases h : ls = []
      · simp [h]
      · rw [intercalate_cons h, ih h, List.flatMap_cons, List.cons_append]
  obtain ⟨l, ls, rfl⟩ := List.exists_cons_of_ne_nil hne
  rw [List.map_cons, render, render_true]
  by_cases h : ls = []
  · simp [h]
  · rw [intercalate_cons h, hrest ls h]
    rfl

/-- The sizes of which the decoder wants a block for some items. -/
def Text.asked : Text → List Item → List ℕ
  | _, [] => []
  | t, .label bs :: is =>
    (if t.Asks bs.length then [t.size * 2] else []) ++ Text.asked (t.add (.label bs)) is
  | t, .pointer o :: is => Text.asked (t.add (.pointer o)) is

/-- Labels find room when there is memory and when none of them goes past a doubled buffer. -/
theorem Text.holds_cons : t.Holds h (.label l :: labels.map .label) ↔
    (∀ n ∈ (if t.Asks l.length then [t.size * 2] else []), h.gives n) ∧
      t.start + l.length < t.grown l.length ∧ (t.add (.label l)).Holds h (labels.map .label) := by
  show ((t.Asks l.length → h.gives (t.size * 2)) ∧ _) ∧ _ ↔ _
  by_cases ha : t.Asks l.length
  · simp [ha, and_assoc]
  · simp [ha]

/-- A buffer of 64 bytes is never too small for a label. -/
theorem Text.holds_of_size (hsize : 64 ≤ t.size) (hlen : t.len < t.size)
    (hl : ∀ l ∈ labels, l.length ≤ 63) :
    t.Holds h (labels.map .label) ↔ ∀ n ∈ t.asked (labels.map .label), h.gives n := by
  induction labels generalizing t with
  | nil => simp [Text.Holds, Text.asked]
  | cons l labels ih =>
    obtain ⟨hfirst, hothers⟩ := List.forall_mem_cons.mp hl
    have hdot := Bool.toNat_le t.dot
    have hroom : t.start + l.length < t.grown l.length := by
      unfold Text.grown Text.start
      by_cases ha : t.Asks l.length
      · rw [if_pos ha]
        omega
      · rw [if_neg ha]
        unfold Text.Asks Text.start at ha
        omega
    have hgrown : t.size ≤ t.grown l.length := by
      unfold Text.grown
      split <;> omega
    rw [List.map_cons, Text.holds_cons, Text.asked, List.forall_mem_append,
      ih (t := t.add (.label l)) (hsize.trans hgrown) hroom hothers]
    exact and_congr_right fun _ => and_iff_right hroom

/-- The first doubling goes well: the name is shorter than 64 characters, or a label ends at an
index from 31 to 63. -/
def Breaks (i : ℕ) (name : List UInt8) : Prop :=
  i + name.length < 64 ∨ ∃ k, 31 ≤ i + k ∧ i + k < 64 ∧ name[k]? = some 46

theorem breaks_cons {i : ℕ} {rest : List UInt8} (he : i + l.length < 31) :
    Breaks i (l ++ 46 :: rest) ↔ Breaks (i + l.length + 1) rest := by
  have hlen : i + (l ++ 46 :: rest).length = i + l.length + 1 + rest.length := by
    simp only [List.length_append, List.length_cons]
    omega
  unfold Breaks
  rw [hlen]
  refine or_congr_right ⟨?_, ?_⟩
  · rintro ⟨k, h31, h64, hk⟩
    obtain ⟨j, rfl⟩ := Nat.exists_eq_add_of_le (show l.length + 1 ≤ k by omega)
    rw [List.getElem?_append_right (by omega), show l.length + 1 + j - l.length = j + 1 by omega,
      List.getElem?_cons_succ] at hk
    exact ⟨j, by omega, by omega, hk⟩
  · rintro ⟨j, h31, h64, hj⟩
    refine ⟨l.length + 1 + j, by omega, by omega, ?_⟩
    rwa [List.getElem?_append_right (by omega), show l.length + 1 + j - l.length = j + 1 by omega,
      List.getElem?_cons_succ]

/-- A label that goes past the doubled buffer. -/
theorem not_breaks {i : ℕ} {rest : List UInt8} (hl : ∀ c ∈ l, c ≠ 46) (he : 64 ≤ i + l.length) :
    ¬Breaks i (l ++ rest) := by
  rintro (hlt | ⟨k, -, h64, hk⟩)
  · rw [List.length_append] at hlt
    omega
  · rw [List.getElem?_append_left (by omega)] at hk
    exact hl 46 (List.mem_of_getElem? hk) rfl

/-- A buffer of 32 bytes. -/
theorem Text.holds_of_first (hsize : t.size = 32) (hstart : t.start ≤ 31) (hne : labels ≠ [])
    (hl : ∀ l ∈ labels, l.length ≤ 63 ∧ ∀ c ∈ l, c ≠ 46) :
    t.Holds h (labels.map .label) ↔
      (∀ n ∈ t.asked (labels.map .label), h.gives n) ∧
        Breaks t.start ([46].intercalate labels) := by
  induction labels generalizing t with
  | nil => exact absurd rfl hne
  | cons l labels ih =>
    obtain ⟨⟨hlen, hdot⟩, hothers⟩ := List.forall_mem_cons.mp hl
    have hasks : t.Asks l.length ↔ 31 ≤ t.start + l.length := by
      unfold Text.Asks
      omega
    rw [List.map_cons, Text.holds_cons, Text.asked, List.forall_mem_append]
    rcases Nat.lt_or_ge (t.start + l.length) 31 with h31 | h31
    · have hgrown : t.grown l.length = 32 := by
        rw [Text.grown, if_neg fun ha => absurd (hasks.mp ha) (by omega), hsize]
      have hroom : t.start + l.length < t.grown l.length := by omega
      by_cases hrest : labels = []
      · subst hrest
        have hbreaks : Breaks t.start l := .inl (by omega)
        simp [hroom, hbreaks, Text.Holds, Text.asked]
      · have hih :=
          ih (t := t.add (.label l)) hgrown (show t.start + l.length + 1 ≤ 31 by omega) hrest
          hothers
        rw [hih, intercalate_cons hrest, breaks_cons h31]
        simp only [hroom, true_and, and_assoc]
        rfl
    have hgrown : t.grown l.length = 64 := by rw [Text.grown, if_pos (hasks.mpr h31), hsize]
    rcases Nat.lt_or_ge (t.start + l.length) 64 with h64 | h64
    · have hroom : t.start + l.length < t.grown l.length := by omega
      have hbreaks : Breaks t.start ([46].intercalate (l :: labels)) := by
        by_cases hrest : labels = []
        · subst hrest
          rw [List.intercalate_singleton]
          exact .inl h64
        · rw [intercalate_cons hrest]
          exact .inr ⟨l.length, h31, h64, by simp⟩
      have hrest := Text.holds_of_size (h := h) (t := t.add (.label l)) hgrown.ge hroom fun l hl =>
        (hothers l hl).1
      simp only [hroom, hbreaks, hrest, true_and, and_true]
    · have hno : ¬Breaks t.start ([46].intercalate (l :: labels)) := by
        by_cases hrest : labels = []
        · rw [hrest, List.intercalate_singleton]
          have := @not_breaks _ _ [] hdot h64
          rwa [List.append_nil] at this
        · rw [intercalate_cons hrest]
          exact not_breaks hdot h64
      have hroom : ¬t.start + l.length < t.grown l.length := by omega
      simp only [hroom, hno, false_and, and_false]

end

/-! ### The round trip -/

/-- The bytes for a host in the buffer of `dns_send`, behind the header. -/
def queryRoom : ℕ := 512 - 12

/-- The host is encoded within the query, in two bytes more than it has characters, and decoding
these bytes gives it back, within the buffer. -/
def RoundTrip (h : Heap) (host : HostName) : Prop :=
  ∀ m : ℕ → UInt8, ∃ m',
    host2dnsName host.text m queryRoom = .ok (some (queryRoom - (host.text.length + 2)), m') ∧
    ∀ msg : Msg, 12 + (host.text.length + 2) ≤ msg.len →
      getBytes msg.data 12 (host.text.length + 2) = getBytes m' 0 (host.text.length + 2) →
      ∃ fuel, dns2hostName h msg fuel 12 = .ok (some host.text)

theorem dot_labels {labels : List (List UInt8)} (hne : labels ≠ []) (t : Text) :
    ((labels.map Item.label).foldl Text.add t).dot = true := by
  rw [← List.dropLast_append_getLast hne, List.map_append, List.foldl_append]
  rfl

section

variable {h : Heap} {host : HostName} {msg : Msg}

theorem HostName.chain (hin : 12 + host.wire.length ≤ msg.len)
    (hbytes : getBytes msg.data 12 host.wire.length = host.wire) :
    Chain msg 12 host.items (12 + host.text.length + 1) ∧
      msg.data (12 + host.text.length + 1) = 0 := by
  have hlen := length_flatMap_wireLabel host.ne_nil
  have hwire : host.wire.length = (host.labels.flatMap wireLabel).length + 1 := by simp [wire]
  rw [hwire, getBytes_add] at hbytes
  obtain ⟨hlabels, hzero⟩ := List.append_inj hbytes (length_getBytes ..)
  have hc :=
    chain_labels (fun l hl => ⟨(host.label l hl).1, (host.label l hl).2.1⟩) (by omega) hlabels
  rw [hlen, ← Nat.add_assoc] at hc hzero
  exact ⟨hc, List.singleton_inj.mp hzero⟩

theorem HostName.holds_iff : emptyText.Holds h host.items ↔
    (∀ n ∈ emptyText.asked host.items, h.gives n) ∧ Breaks 0 host.text :=
  Text.holds_of_first rfl (by decide) host.ne_nil fun l hl =>
    ⟨(host.label l hl).2.1, fun c hc => ((host.label l hl).2.2 c hc).2⟩

/-- What is decoded from the bytes of a host. -/
theorem decode_host (hin : 12 + host.wire.length ≤ msg.len)
    (hbytes : getBytes msg.data 12 host.wire.length = host.wire) :
    (∃ fuel, dns2hostName h msg fuel 12 = .ok (some host.text)) ↔
      h.gives 32 ∧ emptyText.Holds h host.items := by
  obtain ⟨hc, hzero⟩ := HostName.chain hin hbytes
  have hroom : (0 : UInt8) < 0 → ([] : List UInt8).length < 32 := fun h => absurd h (by decide)
  have hwire := host.length_wire
  constructor
  · rintro ⟨fuel, hrun⟩
    by_cases hgives : h.gives 32
    · rw [dns2hostName, if_pos hgives] at hrun
      exact ⟨hgives, holds_of_loop hc hrun hroom⟩
    · rw [dns2hostName, if_neg hgives] at hrun
      cases hrun
  · rintro ⟨hgives, hholds⟩
    obtain ⟨n', size', htextOf, hroom', hloop⟩ := @loop_chain _ _ _ 32 0 [] _ _ hc hholds hroom
    have htext : [] ++ render (decide ((0 : UInt8) < 0)) host.items = host.text :=
      render_labels host.ne_nil
    rw [htext] at htextOf hroom' hloop
    have hdot : 0 < n' :=
      of_decide_eq_true ((congrArg Text.dot htextOf).trans (dot_labels host.ne_nil _))
    refine ⟨1 + host.items.length, ?_⟩
    rw [dns2hostName, if_pos hgives]
    exact (hloop 1).trans ((loop_zero (by omega) hzero).trans (if_pos (hroom' hdot)))

end

theorem roundTrip_iff_holds (h : Heap) (host : HostName) :
    RoundTrip h host ↔ h.gives 32 ∧ emptyText.Holds h host.items := by
  have hlen : host.text.length ≤ 255 := host.length_le
  have hwire := host.length_wire
  have henc := fun m => @host2dnsName_eq host m queryRoom (by unfold queryRoom; omega)
  have hread : ∀ m a, getBytes (putBytes m a host.wire) a (host.text.length + 2) =
    host.wire := fun m a => by
    rw [← hwire]
    exact getBytes_putBytes m a host.wire
  constructor
  · intro hround
    obtain ⟨m', hrun, hdec⟩ := hround fun _ => 0
    rw [henc] at hrun
    obtain rfl : putBytes (fun _ => 0) 0 host.wire = m' := by cases hrun; rfl
    have hbytes := hread (fun _ => 0) 12
    refine (@decode_host _ _ ⟨putBytes (fun _ => 0) 12 host.wire,
      12 + host.wire.length⟩ le_rfl ?_).mp
      (hdec _ ?_ (hbytes.trans (hread _ 0).symm))
    · rw [hwire]
      exact hbytes
    · rw [← hwire]
  · intro hok m
    refine ⟨_, henc m, fun msg hin hbytes => (decode_host ?_ ?_).mpr hok⟩
    · rwa [hwire]
    · rw [hwire, hbytes, hread]

/-- **When a host survives the round trip.** There is memory for the buffers that are asked for,
and the first doubling does not cut a label: the name is shorter than 64 characters, or it has
a dot at an index from 31 to 63. -/
theorem roundTrip_iff (h : Heap) (host : HostName) : RoundTrip h host ↔
    (h.gives 32 ∧ ∀ n ∈ emptyText.asked host.items, h.gives n) ∧
      (host.text.length < 64 ∨ ∃ k, 31 ≤ k ∧ k < 64 ∧ host.text[k]? = some 46) := by
  rw [roundTrip_iff_holds, HostName.holds_iff, ← and_assoc, Breaks]
  simp only [Nat.zero_add]

/-- 30 letters, a dot and 63 letters. -/
def longName : HostName where
  labels := [List.replicate 30 98, List.replicate 63 99]
  ne_nil := List.cons_ne_nil _ _
  label := by
    have hletters {n : ℕ} {a : UInt8} (hn : 1 ≤ n ∧ n ≤ 63) (ha : a ≠ 0 ∧ a ≠ 46) :
        1 ≤ (List.replicate n a).length ∧ (List.replicate n a).length ≤ 63 ∧
          ∀ c ∈ List.replicate n a, c ≠ 0 ∧ c ≠ 46 := by
      rw [List.length_replicate]
      exact ⟨hn.1, hn.2, fun c hc => List.eq_of_mem_replicate hc ▸ ha⟩
    exact List.forall_mem_cons.mpr ⟨hletters (by decide) (by decide),
      List.forall_mem_singleton.mpr (hletters (by decide) (by decide))⟩
  length_le := by decide

theorem not_roundTrip_longName :
    ¬∀ (h : Heap) (host : HostName), (∀ n < 2 ^ 31, h.gives n) → RoundTrip h host := by
  intro hall
  have hround := hall largeHeap longName fun n hn => decide_eq_true hn
  have hlong : ¬longName.text.length < 64 := by decide
  have hdots : ∀ k < 64, 31 ≤ k → longName.text[k]? ≠ some 46 := by decide
  rcases (HostName.holds_iff.mp ((roundTrip_iff_holds _ _).mp hround).2).2 with hlt
    | ⟨k, h31, h64, hk⟩
  · exact hlong (by rwa [Nat.zero_add] at hlt)
  · rw [Nat.zero_add] at h31 h64
    exact hdots k h64 h31 hk

end Cosiris.Dns
