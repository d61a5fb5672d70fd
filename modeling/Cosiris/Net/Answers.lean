import Cosiris.Net.Hostname
import Cosiris.Net.Response

/-!
# Answers of a name server

What a response to a query says, for a message that is well formed by the standard. Names are
labels, and may go on at an earlier place. `dns_recv` gives what the response says where the
name of every answer is a pointer and nothing else, and `dns2host_name` finds the labels of
the names.
-/

namespace Cosiris.Dns

open Net Codec

/-! ### What a response says -/

/-- The labels of a name. -/
def labelsOf : List Item → List (List UInt8)
  | [] => []
  | .label bs :: is => bs :: labelsOf is
  | .pointer _ :: is => labelsOf is

/-- The text of a name: the labels with dots in between. -/
def nameText (is : List Item) : List UInt8 := [46].intercalate (labelsOf is)

/-- The number of bytes of a name, without those behind a pointer. -/
def nameSize : List Item → ℕ
  | [] => 1
  | .label bs :: is => 1 + bs.length + nameSize is
  | .pointer _ :: _ => 2

/-- The data of a record. -/
inductive RData
  | a (ip : ℕ)
  | ns (host : List Item)
  | cname (host : List Item)
  | mx (prio : ℕ) (host : List Item)

namespace RData

/-- `DNS_T_A`, `DNS_T_NS`, `DNS_T_CNAME` and `DNS_T_MX`. -/
def type : RData → ℕ
  | a _ => 1
  | ns _ => 2
  | cname _ => 5
  | mx _ _ => 15

/-- The number of bytes. -/
def size : RData → ℕ
  | a _ => 4
  | ns host => nameSize host
  | cname host => nameSize host
  | mx _ host => 2 + nameSize host

/-- The names in the data. -/
def names : RData → List (List Item)
  | a _ => []
  | ns host => [host]
  | cname host => [host]
  | mx _ host => [host]

/-- The priority, which stays 0 where the data has none. -/
def prio : RData → ℕ
  | mx prio _ => prio
  | _ => 0

/-- The data, as the parser gives it. -/
def value : RData → Data
  | a ip => .ip ip
  | ns host => .name (nameText host)
  | cname host => .name (nameText host)
  | mx _ host => .name (nameText host)

end RData

/-- A resource record of class `cls`. -/
structure Record where
  owner : List Item
  cls : ℕ
  ttl : ℕ
  data : RData

/-- The number of bytes. -/
def Record.size (r : Record) : ℕ := nameSize r.owner + 10 + r.data.size

/-- The names of a record. -/
def Record.names (r : Record) : List (List Item) := r.owner :: r.data.names

/-- What is to be found of a record in the result. -/
def Record.answer (r : Record) : Answer :=
  ⟨nameText r.owner, r.data.type, r.cls, r.ttl, r.data.prio, r.data.value⟩

/-- A response: the name in the question, and the records of the answer. -/
structure Response where
  question : List (List UInt8)
  records : List Record

/-- The index of the zero byte at the end of the question's name. -/
def Response.nameEnd (s : Response) : ℕ := 11 + nameSize (s.question.map .label)

/-! ### Well-formed messages -/

/-- The `k` bytes at index `p` are neither of the header nor the type and the class of the
question, whose name ends at index `q`. -/
structure Body (m : Msg) (q p k : ℕ) : Prop where
  start : 12 ≤ p
  inside : p + k ≤ m.len
  clear : p + k ≤ q + 1 ∨ q + 5 ≤ p

/-- A pointer at index `p`: two bits that are set, and the offset of an earlier place. -/
structure LinkAt (m : Msg) (p o : ℕ) : Prop where
  mark : 192 ≤ (m.data p).toNat
  offset : (m.data p).toNat % 64 * 256 + (m.data (p + 1)).toNat = o
  earlier : o < p

/-- A name at index `p`: labels of at most 63 bytes, up to a zero byte or a pointer to where the
name goes on. -/
def NameAt (m : Msg) (q : ℕ) : ℕ → List Item → Prop
  | p, [] => Body m q p 1 ∧ m.data p = 0
  | p, .label bs :: is =>
      Body m q p (1 + bs.length) ∧ LabelAt m p bs ∧ bs.length < 64 ∧
        NameAt m q (p + 1 + bs.length) is
  | p, .pointer o :: is => Body m q p 2 ∧ LinkAt m p o ∧ NameAt m q o is

/-- The number of `n` bytes at index `p`, in network byte order. -/
def numAt (m : Msg) (p n : ℕ) : ℕ := ntoh n (getLe m.data p n)

/-- The data of a record at index `p`. -/
def DataAt (m : Msg) (q p : ℕ) : RData → Prop
  | .a ip => numAt m p 4 = ip
  | .ns host => NameAt m q p host
  | .cname host => NameAt m q p host
  | .mx prio host => numAt m p 2 = prio ∧ NameAt m q (p + 2) host

/-- The fields of a record behind the name, from index `p` on. -/
structure FieldsAt (m : Msg) (q p : ℕ) (r : Record) : Prop where
  inside : p + 10 + r.data.size ≤ m.len
  type : numAt m p 2 = r.data.type
  cls : numAt m (p + 2) 2 = r.cls
  ttl : numAt m (p + 4) 4 = r.ttl
  length : numAt m (p + 8) 2 = r.data.size
  data : DataAt m q (p + 10) r.data

/-- Records from index `p` on, one after the other. -/
def RecordsAt (m : Msg) (q : ℕ) : ℕ → List Record → Prop
  | _, [] => True
  | p, r :: rs =>
      NameAt m q p r.owner ∧ FieldsAt m q (p + nameSize r.owner) r ∧ RecordsAt m q (p + r.size) rs

/-- A response by the standard to the query `id` for records of some type, with one question and
at most 20 answers. -/
structure WellFormed (m : Msg) (id type : ℕ) (s : Response) : Prop where
  header : 12 ≤ m.len
  response : (DnsHdr.wire m.data).qr = 1
  answers : Answers m id
  count : (DnsHdr.wire m.data).ansCount = s.records.length
  few : s.records.length ≤ 20
  question : NameAt m s.nameEnd 12 (s.question.map .label)
  fields : s.nameEnd + 5 ≤ m.len
  qtype : numAt m (s.nameEnd + 1) 2 = type
  qclass : numAt m (s.nameEnd + 3) 2 = 1
  records : RecordsAt m s.nameEnd (s.nameEnd + 5) s.records

/-! ### What the code does right -/

/-- A pointer that follows a label leads to another label. `dot` says that a label comes before
the items. -/
def Tidy : Bool → List Item → Prop
  | _, [] => True
  | _, .label _ :: is => Tidy true is
  | dot, .pointer _ :: is => (dot = true → labelsOf is ≠ []) ∧ Tidy false is

/-- The decoder gives the text of a name: there is memory, no pointer has a large offset, and none
leads from a label to the end. -/
structure Decodes (h : Heap) (is : List Item) : Prop where
  gives : h.gives 32
  near : ∀ o, .pointer o ∈ is → o < 128
  holds : emptyText.Holds h is
  tidy : Tidy false is

/-- The name of a record is a pointer and nothing else. -/
def Record.Bare (r : Record) : Prop := ∃ o is, r.owner = .pointer o :: is

/-- A response that the code reads right. -/
structure Response.Good (h : Heap) (s : Response) : Prop where
  question : ∀ l ∈ s.question, 0 ∉ l
  bare : ∀ r ∈ s.records, r.Bare
  decodes : ∀ r ∈ s.records, ∀ is ∈ r.names, Decodes h is

/-- A response to a query, as the code reads it. -/
def Parses (h : Heap) (m : Msg) (id type : ℕ) : Prop :=
  (∃ fuel r, dnsRecv h fuel m id type = .ok r) ∧
    ∀ s, WellFormed m id type s → ∃ fuel size, dnsRecv h fuel m id type =
      .ok (some ⟨s.records.length, size, s.records.map Record.answer⟩)

/-- What is read stays inside the message, and if the message is a response, the code reads it
right. -/
def Conforms (h : Heap) (m : Msg) (id type : ℕ) : Prop :=
  Stays h m id type ∧ ∀ s, WellFormed m id type s → s.Good h

/-- No label has a zero byte, and the offset of a pointer is one byte. -/
structure Plain (is : List Item) : Prop where
  label : ∀ bs, .label bs ∈ is → 0 ∉ bs
  pointer : ∀ o, .pointer o ∈ is → o < 256

/-- A response without a zero byte in a label, and with offsets of one byte. -/
structure Response.Plain (s : Response) : Prop where
  question : ∀ l ∈ s.question, 0 ∉ l
  names : ∀ r ∈ s.records, ∀ is ∈ r.names, Dns.Plain is

/-! ### The message behind the question -/

section

variable {h : Heap} {m : Msg} {q p k o : ℕ} {is : List Item} {bs : List UInt8}

theorem asked_data (hp : 12 ≤ p) (hclear : p < q + 1 ∨ q + 5 ≤ p) :
    (asked m q).data p = m.data p := by
  show swapAt 2 (q + 1) (swapAt 2 (q + 3) (buf2dns m.data)) p = m.data p
  rw [swapAt_of_disjoint (by omega), swapAt_of_disjoint (by omega), buf2dns_of_ge hp]

theorem Body.data (hb : Body m q p k) {i : ℕ} (hi : i < k) :
    (asked m q).data (p + i) = m.data (p + i) := by
  obtain ⟨hstart, -, hclear⟩ := hb
  exact asked_data (by omega) (by omega)

/-- What lies behind the question is as it was received. -/
theorem numAt_asked (hq : 12 ≤ q) (hp : q + 5 ≤ p) (n : ℕ) : numAt (asked m q) p n = numAt m p n :=
  congrArg (ntoh n) (getLe_congr fun i _ => asked_data (by omega) (by omega))

theorem LabelAt.asked (hl : LabelAt m p bs) (hb : Body m q p (1 + bs.length)) :
    LabelAt (asked m q) p bs := by
  have hfirst : (Dns.asked m q).data p = m.data p := @Body.data m q p _ hb 0 (by omega)
  refine ⟨hl.inside, hl.ne_nil, hfirst ▸ hl.length, hfirst ▸ hl.ne_pointer, Eq.trans ?_ hl.bytes⟩
  refine getBytes_congr fun i hi => ?_
  rw [Nat.add_assoc]
  exact hb.data (by omega)

/-- A pointer with an offset of one byte, as the decoder finds it. -/
theorem LinkAt.bytes (hl : LinkAt m p o) (hb : Body m q p 2) (ho : o < 256) :
    (asked m q).data p = 0xc0 ∧ ((asked m q).data (p + 1)).toNat = o := by
  obtain ⟨hmark, hoffset, -⟩ := hl
  have hlt := (m.data p).toNat_lt
  have hfirst : (asked m q).data p = m.data p := @Body.data m q p 2 hb 0 (by omega)
  rw [hfirst, hb.data (by omega)]
  refine ⟨UInt8.toNat_inj.mp ?_, by omega⟩
  show _ = 192
  omega

theorem LinkAt.pointer (hl : LinkAt m p o) (hb : Body m q p 2) (ho : o < 128) :
    PointerAt (asked m q) p o := by
  obtain ⟨hmark, hoffset⟩ := hl.bytes hb (by omega)
  exact ⟨hb.inside, hmark, hoffset, ho⟩

/-! ### Names -/

/-- The items of a name lead to its end. -/
theorem chain_of_name (hname : NameAt m q p is) (hnear : ∀ o, .pointer o ∈ is → o < 128) :
    ∃ e, Chain (asked m q) p is e ∧ e < (asked m q).len ∧ (asked m q).data e = 0 := by
  induction is generalizing p with
  | nil =>
    obtain ⟨hb, hzero⟩ := hname
    exact ⟨p, rfl, hb.inside, (@Body.data m q p 1 hb 0 (by omega)).trans hzero⟩
  | cons i is ih =>
    have hrest : ∀ o, .pointer o ∈ is → o < 128 := fun o ho => hnear o (List.mem_cons_of_mem _ ho)
    cases i with
    | label bs =>
      obtain ⟨hb, hl, -, hname⟩ := hname
      obtain ⟨e, hc, he⟩ := ih hname hrest
      exact ⟨e, ⟨hl.asked hb, hc⟩, he⟩
    | pointer o =>
      obtain ⟨hb, hl, hname⟩ := hname
      obtain ⟨e, hc, he⟩ := ih hname hrest
      exact ⟨e, ⟨hl.pointer hb (hnear o List.mem_cons_self), hc⟩, he⟩

/-- The text of the labels behind an item. -/
def dotText (dot : Bool) (ls : List (List UInt8)) : List UInt8 :=
  if ls = [] then [] else List.replicate dot.toNat 46 ++ [46].intercalate ls

theorem dotText_cons (dot : Bool) (bs : List UInt8) (ls : List (List UInt8)) :
    dotText dot (bs :: ls) = List.replicate dot.toNat 46 ++ bs ++ dotText true ls := by
  by_cases hls : ls = []
  · simp [dotText, hls]
  · simp [dotText, hls, intercalate_cons]

/-- The decoder's text is that of the labels where no dot is left over. -/
theorem render_eq_iff (dot : Bool) (is : List Item) :
    render dot is = dotText dot (labelsOf is) ↔ Tidy dot is := by
  induction is generalizing dot with
  | nil => exact iff_of_true rfl trivial
  | cons i is ih =>
    cases i with
    | label bs =>
      rw [render, labelsOf, dotText_cons, List.append_cancel_left_eq, ih]
      rfl
    | pointer o =>
      rw [render, labelsOf, Tidy, ← ih]
      by_cases hls : labelsOf is = []
      · cases dot with
        | false => simp [dotText, hls]
        | true => simp [dotText, hls]
      · simp [dotText, hls]

theorem dotText_false (is : List Item) : dotText false (labelsOf is) = nameText is := by
  by_cases hls : labelsOf is = []
  · simp [dotText, nameText, hls]
  · simp [dotText, nameText, hls]

/-- There is room for the final NUL behind the last label. -/
theorem Text.room_of_tidy {t : Text} (hholds : t.Holds h is) (htidy : Tidy t.dot is)
    (hroom : t.len < t.size ∨ labelsOf is ≠ []) :
    (is.foldl Text.add t).len < (is.foldl Text.add t).size := by
  induction is generalizing t with
  | nil => exact hroom.resolve_right fun h => h rfl
  | cons i is ih =>
    obtain ⟨hfirst, hrest⟩ := hholds
    cases i with
    | label bs => exact ih hrest htidy (.inl hfirst.2)
    | pointer o =>
      obtain ⟨hlabel, htidy⟩ := htidy
      refine ih hrest htidy ?_
      by_cases hdot : t.dot = true
      · exact .inr (hlabel hdot)
      · refine hroom.imp_left fun hlt => ?_
        have hstart : t.start = t.len := by simp [Text.start, hdot]
        exact hstart.trans_lt hlt

/-- The decoder gives the text of a name. -/
theorem decode_name (hname : NameAt m q p is) (hd : Decodes h is) :
    ∃ fuel, dns2hostName h (asked m q) fuel p = .ok (some (nameText is)) := by
  obtain ⟨e, hc, he, hzero⟩ := chain_of_name hname hd.near
  have hroom : (0 : UInt8) < 0 → ([] : List UInt8).length < 32 := fun h => absurd h (by decide)
  obtain ⟨n', size', htext, -, hloop⟩ := @loop_chain h (asked m q) p 32 0 [] is e hc hd.holds hroom
  have hrender : render false is = nameText is :=
    ((render_eq_iff false is).mpr hd.tidy).trans (dotText_false is)
  have hlt := Text.room_of_tidy hd.holds hd.tidy (.inl (by decide))
  replace htext : textOf n' (render false is) size' = is.foldl Text.add emptyText := htext
  rw [← htext] at hlt
  refine ⟨0 + 1 + is.length, ?_⟩
  rw [dns2hostName, if_pos hd.gives, hloop]
  show dns2hostLoop h (asked m q) (0 + 1) e n' (render false is) size' = _
  rw [loop_zero he hzero, ← hrender]
  exact if_pos hlt

/-- A decoder that gives a text has not gone to a place in front of the message. -/
theorem near_of_loop {fuel size : ℕ} {n : UInt8} {buf r : List UInt8} (hname : NameAt m q p is)
    (hfar : ∀ o, .pointer o ∈ is → o < 256)
    (hrun : dns2hostLoop h (asked m q) fuel p n buf size = .ok (some r))
    (hroom : 0 < n → buf.length < size) : ∀ o, .pointer o ∈ is → o < 128 := by
  induction is generalizing p n buf size fuel with
  | nil => exact fun o ho => absurd ho List.not_mem_nil
  | cons i is ih =>
    have hrest : ∀ o, .pointer o ∈ is → o < 256 := fun o ho => hfar o (List.mem_cons_of_mem _ ho)
    cases fuel with
    | zero => cases hrun
    | succ fuel =>
      cases i with
      | label bs =>
        obtain ⟨hb, hl, -, hname⟩ := hname
        have hfits := fits_of_loop (hl.asked hb) hroom hrun
        rw [step_label (hl.asked hb) hfits hroom] at hrun
        intro o ho
        exact ih hname hrest hrun (fun _ => length_dotted_label hfits) o
          (List.mem_of_ne_of_mem (by simp) ho)
      | pointer o =>
        obtain ⟨hb, hl, hname⟩ := hname
        have ho := hfar o List.mem_cons_self
        have hnear : o < 128 := by
          by_contra hge
          obtain ⟨hmark, hoffset⟩ := hl.bytes hb ho
          have hrd := @rd_of_lt (asked m q) (p + 1) hb.inside
          rw [Nat.cast_succ] at hrd
          rw [loop_pointer (by have := hb.inside; show p < m.len; omega) hmark hroom, hrd] at hrun
          replace hrun : dns2hostLoop h (asked m q) fuel ((asked m q).data (p + 1)).toInt8.toInt 0
            (dotted n buf) size =
            .ok (some r) := hrun
          rw [signed_eq, if_neg (by omega)] at hrun
          exact absurd hrun (loop_negative (by omega) (some r))
        rw [step_pointer (hl.pointer hb hnear) hroom] at hrun
        have hothers := ih hname hrest hrun fun h => absurd h (by decide)
        exact fun o' ho' =>
          (List.mem_cons.mp ho').elim (fun h => Item.pointer.inj h ▸ hnear) (hothers o')

/-- The decoder gives the text of a name only where it can be read so. -/
theorem decodes_of_run {fuel : ℕ} (hname : NameAt m q p is) (hfar : ∀ o, .pointer o ∈ is → o < 256)
    (hrun : dns2hostName h (asked m q) fuel p = .ok (some (nameText is))) : Decodes h is := by
  by_cases hgives : h.gives 32
  · have hroom : (0 : UInt8) < 0 → ([] : List UInt8).length < 32 := fun h => absurd h (by decide)
    rw [dns2hostName, if_pos hgives] at hrun
    have hnear := near_of_loop hname hfar hrun hroom
    obtain ⟨e, hc, he, hzero⟩ := chain_of_name hname hnear
    have hholds := holds_of_loop hc hrun hroom
    obtain ⟨n', size', -, -, hloop⟩ := loop_chain hc hholds hroom
    have hmore := dns2hostLoop_mono hrun (Nat.le_add_right fuel (1 + is.length))
    rw [← Nat.add_assoc, hloop, loop_zero he hzero] at hmore
    split at hmore
    next hlt =>
      refine ⟨hgives, hnear, hholds, (render_eq_iff false is).mp ?_⟩
      rw [dotText_false]
      exact Option.some.inj (Except.ok.inj hmore)
    next hno => cases hmore
  · rw [dns2hostName, if_neg hgives] at hrun
    cases hrun

end

/-! ### Records -/

section

variable {h : Heap} {m : Msg} {q p fuel : ℕ} {r : Record}

/-- The data of a record are parsed where its names can be decoded. -/
theorem parseData_right {d : RData} (hq : 12 ≤ q) (hp : q + 5 ≤ p) (hin : p + d.size ≤ m.len)
    (hlt : d.size < 2 ^ 16)
    (hdata : DataAt m q p d) (hd : ∀ is ∈ d.names, Decodes h is) :
    ∃ fuel, parseData h fuel (asked m q) d.type d.size p = .ok (d.prio, d.value, p + d.size) := by
  cases d with
  | a ip =>
    have hip : numAt (asked m q) p 4 = ip := (numAt_asked hq hp 4).trans hdata
    exact ⟨0, parseData_a.mpr ⟨hin, by rw [← hip]; rfl⟩⟩
  | ns host =>
    obtain ⟨fuel, hn⟩ := decode_name hdata (hd host List.mem_cons_self)
    exact ⟨fuel, (parseData_name (.inl rfl)).mpr ⟨_, hn, rfl⟩⟩
  | cname host =>
    obtain ⟨fuel, hn⟩ := decode_name hdata (hd host List.mem_cons_self)
    exact ⟨fuel, (parseData_name (.inr (.inl rfl))).mpr ⟨_, hn, rfl⟩⟩
  | mx prio host =>
    obtain ⟨hprio, hname⟩ := hdata
    obtain ⟨fuel, hn⟩ := decode_name hname (hd host List.mem_cons_self)
    replace hprio : numAt (asked m q) p 2 = prio := (numAt_asked hq hp 2).trans hprio
    replace hin : p + (2 + nameSize host) ≤ m.len := hin
    replace hlt : 2 + nameSize host < 2 ^ 16 := hlt
    have hnext : p + 2 + (2 + nameSize host + (2 ^ 16 - 2)) % 2 ^ 16 = p + (2 + nameSize host) := by
      omega
    refine ⟨fuel, parseData_mx.mpr ⟨by show p + 2 ≤ m.len; omega, _, hn, ?_⟩⟩
    show (numAt (asked m q) p 2, Data.name _,
      p + 2 + (2 + nameSize host + (2 ^ 16 - 2)) % 2 ^ 16) = _
    rw [hprio, hnext]
    rfl

/-- The data of a record are parsed only where its names can be decoded. -/
theorem decodes_of_parseData {d : RData} {a : ℕ × Data × ℕ} (hdata : DataAt m q p d)
    (hplain : ∀ is ∈ d.names, Plain is)
    (hrun : parseData h fuel (asked m q) d.type d.size p = .ok a) (ha : a.2.1 = d.value) :
    ∀ is ∈ d.names, Decodes h is := by
  have hhost {host : List Item} {p : ℕ} {n : Option (List UInt8)} (hname : NameAt m q p host)
    (hp : Plain host) (hn : dns2hostName h (asked m q) fuel p = .ok n)
      (hvalue : Data.name n = .name (nameText host)) :
      ∀ is ∈ [host], Decodes h is := by
    obtain rfl : n = nameText host := Data.name.inj hvalue
    exact List.forall_mem_singleton.mpr (decodes_of_run hname hp.pointer hn)
  cases d with
  | a ip => exact fun is his => absurd his List.not_mem_nil
  | ns host =>
    obtain ⟨n, hn, rfl⟩ := (parseData_name (.inl rfl)).mp hrun
    exact hhost hdata (hplain host List.mem_cons_self) hn ha
  | cname host =>
    obtain ⟨n, hn, rfl⟩ := (parseData_name (.inr (.inl rfl))).mp hrun
    exact hhost hdata (hplain host List.mem_cons_self) hn ha
  | mx prio host =>
    obtain ⟨-, n, hn, rfl⟩ := parseData_mx.mp hrun
    exact hhost hdata.2 (hplain host List.mem_cons_self) hn ha

/-- Where the parser goes on behind data that are well-formed. -/
theorem dataNext_eq {d : RData} (hlt : d.size < 2 ^ 16) (p : ℕ) :
    dataNext d.type d.size p = p + d.size := by
  cases d with
  | a ip => rfl
  | ns host => rfl
  | cname host => rfl
  | mx prio host =>
    show p + 2 + (2 + nameSize host + (2 ^ 16 - 2)) % 2 ^ 16 = p + (2 + nameSize host)
    replace hlt : 2 + nameSize host < 2 ^ 16 := hlt
    omega

theorem FieldsAt.size_lt (hf : FieldsAt m q p r) : r.data.size < 2 ^ 16 := by
  rw [← hf.length]
  exact ntoh_lt 2 _

theorem Record.Bare.size (hbare : r.Bare) : nameSize r.owner = 2 := by
  obtain ⟨o, is, howner⟩ := hbare
  rw [howner, nameSize]

/-- A record whose name is a pointer is parsed where its names can be decoded. -/
theorem parseAnswer_right (hq : 12 ≤ q) (hp : q + 5 ≤ p) (hname : NameAt m q p r.owner)
    (hf : FieldsAt m q (p + nameSize r.owner) r) (hbare : r.Bare)
    (hd : ∀ is ∈ r.names, Decodes h is) :
    ∃ fuel, parseAnswer h fuel (asked m q) p = .ok (r.answer, p + r.size) := by
  obtain ⟨howner, hdata⟩ := List.forall_mem_cons.mp hd
  have hlt := hf.size_lt
  rw [Record.size, hbare.size]
  rw [hbare.size] at hf
  obtain ⟨hin, htype, hcls, httl, hlength, hvalue⟩ := hf
  obtain ⟨fuel, hn⟩ := decode_name hname howner
  obtain ⟨fuel', hd⟩ := parseData_right hq (by omega) hin hlt hvalue hdata
  rw [← @numAt_asked m q (p + 2) hq (by omega)] at htype
  rw [← @numAt_asked m q (p + 4) hq (by omega)] at hcls
  rw [← @numAt_asked m q (p + 6) hq (by omega)] at httl
  rw [← @numAt_asked m q (p + 10) hq (by omega)] at hlength
  unfold numAt at htype hcls httl hlength
  refine ⟨max fuel fuel',
    parseAnswer_eq_ok.mpr ⟨by show p + 12 ≤ m.len; omega, _,
      dns2hostName_mono hn (Nat.le_max_left _ _),
    (r.data.prio, r.data.value, p + 2 + 10 + r.data.size), ?_, ?_⟩⟩
  · rw [htype, hlength]
    exact parseData_mono hd (Nat.le_max_right _ _)
  · rw [htype, hcls, httl, Nat.add_assoc p, Nat.add_assoc p]
    rfl

/-- Records with pointers for names are parsed one after the other. -/
theorem parseAnswers_right {rs : List Record} (hq : 12 ≤ q) (hp : q + 5 ≤ p)
    (hrs : RecordsAt m q p rs)
    (hbare : ∀ r ∈ rs, r.Bare) (hd : ∀ r ∈ rs, ∀ is ∈ r.names, Decodes h is) :
    ∃ fuel, parseAnswers h fuel (asked m q) rs.length p = .ok (rs.map Record.answer) := by
  induction rs generalizing p with
  | nil => exact ⟨0, rfl⟩
  | cons r rs ih =>
    obtain ⟨hname, hf, hrest⟩ := hrs
    obtain ⟨hb, hbs⟩ := List.forall_mem_cons.mp hbare
    obtain ⟨hr, hrs⟩ := List.forall_mem_cons.mp hd
    obtain ⟨fuel, ha⟩ := parseAnswer_right hq hp hname hf hb hr
    obtain ⟨fuel', has⟩ := ih (by omega) hrest hbs hrs
    exact ⟨max fuel fuel', bind_eq_ok.mpr ⟨_, parseAnswer_mono ha (Nat.le_max_left _ _),
      bind_eq_ok.mpr ⟨_, parseAnswers_mono has (Nat.le_max_right _ _), rfl⟩⟩⟩

/-! ### Names that are not pointers -/

theorem numAt_two (m : Msg) (p : ℕ) :
    numAt m p 2 = (m.data p).toNat * 256 + (m.data (p + 1)).toNat := by
  have hsplit := ntoh_getLe_add m.data p 1 1
  rw [ntoh_one, ntoh_one] at hsplit
  exact hsplit

/-- The types that are known are of one byte. -/
theorem RData.type_pos (d : RData) : 0 < d.type ∧ d.type < 256 := by
  cases d <;> simp [type]

theorem ne_zero_of_plain {bs : List UInt8} {i : ℕ} (hl : LabelAt m p bs) (hplain : 0 ∉ bs)
    (hi : i < bs.length) : m.data (p + 1 + i) ≠ 0 := by
  intro h0
  have hmem := @mem_getBytes m.data (p + 1) bs.length i hi
  rw [h0, hl.bytes] at hmem
  exact hplain hmem

/-- A word whose first byte is not zero is not the type of a record. -/
theorem type_ne_of_first (d : RData) (h0 : m.data p ≠ 0) : numAt m p 2 ≠ d.type := by
  have hpos := (UInt8.pos_iff_ne_zero.mpr h0)
  have hfirst : 0 < (m.data p).toNat := hpos
  have hsmall := d.type_pos.2
  rw [numAt_two]
  omega

/-- Behind two bytes of a name that is not a pointer there is no type. -/
theorem type_ne_of_not_bare (hname : NameAt m q p r.owner)
    (hf : FieldsAt m q (p + nameSize r.owner) r)
    (hplain : Plain r.owner) (hno : ¬r.Bare) : numAt m (p + 2) 2 ≠ r.data.type := by
  obtain ⟨hpos, hsmall⟩ := r.data.type_pos
  have htype := hf.type
  rw [numAt_two] at htype
  cases howner : r.owner with
  | nil =>
    -- the second byte of the type and the first one of the class
    rw [howner] at htype
    replace htype : (m.data (p + 1)).toNat * 256 + (m.data (p + 2)).toNat = r.data.type := htype
    rw [numAt_two]
    omega
  | cons i is =>
    rw [howner] at hname htype hplain
    cases i with
    | pointer o => exact absurd ⟨o, is, howner⟩ hno
    | label bs =>
      obtain ⟨-, hl, hlen, hname⟩ := hname
      have hne := List.length_pos_iff.mpr hl.ne_nil
      rcases Nat.eq_or_lt_of_le (Nat.succ_le_of_lt hne) with h1 | h2
      · -- the label has one character, and the next item comes behind it
        rw [← h1] at hname
        cases is with
        | nil =>
          obtain ⟨-, hzero⟩ := hname
          rw [nameSize, nameSize, ← h1] at htype
          replace htype : (m.data (p + 3)).toNat * 256 + (m.data (p + 4)).toNat = r.data.type :=
            htype
          have hfirst : (m.data (p + 2)).toNat = 0 := congrArg UInt8.toNat hzero
          rw [numAt_two, hfirst]
          show 0 * 256 + (m.data (p + 3)).toNat ≠ r.data.type
          omega
        | cons i is =>
          refine type_ne_of_first _ ?_
          cases i with
          | label bs' => exact UInt8.pos_iff_ne_zero.mp hname.2.1.pos
          | pointer o =>
            intro h0
            have hmark := hname.2.1.mark
            replace h0 : m.data (p + 1 + 1) = 0 := h0
            rw [h0] at hmark
            exact absurd hmark (by decide)
      · -- the label has more characters
        exact type_ne_of_first _
          (@ne_zero_of_plain m p bs 1 hl (hplain.label bs List.mem_cons_self) h2)

/-- One round gives a record only where its name is a pointer and its names can be decoded. -/
theorem good_of_parseAnswer {p' : ℕ} (hq : 12 ≤ q) (hp : q + 5 ≤ p) (hname : NameAt m q p r.owner)
    (hf : FieldsAt m q (p + nameSize r.owner) r) (hplain : ∀ is ∈ r.names, Plain is)
    (hrun : parseAnswer h fuel (asked m q) p = .ok (r.answer, p')) :
    r.Bare ∧ (∀ is ∈ r.names, Decodes h is) ∧ p' = p + r.size := by
  obtain ⟨howner, hdata⟩ := List.forall_mem_cons.mp hplain
  obtain ⟨-, n, hn, d, hd, heq⟩ := parseAnswer_eq_ok.mp hrun
  obtain ⟨hanswer, hnext⟩ := Prod.mk.inj heq
  obtain ⟨htext, htype, -, -, -, hvalue⟩ := Answer.mk.inj hanswer
  replace htype : numAt (asked m q) (p + 2) 2 = r.data.type := htype
  have hbare : r.Bare := by
    by_contra hno
    rw [numAt_asked hq (by omega)] at htype
    exact type_ne_of_not_bare hname hf howner hno htype
  have hlt := hf.size_lt
  have hlength := hf.length
  rw [hbare.size] at hf hlength
  rw [← @numAt_asked m q (p + 10) hq (by omega)] at hlength
  replace hd : parseData h fuel (asked m q) (numAt (asked m q) (p + 2) 2)
    (numAt (asked m q) (p + 10) 2) (p + 12) =
    .ok d := hd
  rw [htype, hlength] at hd
  rw [htext] at hn
  refine ⟨hbare, List.forall_mem_cons.mpr ⟨decodes_of_run hname howner.pointer hn,
    decodes_of_parseData hf.data hdata hd hvalue⟩, ?_⟩
  rw [← hnext, parseData_next hd, dataNext_eq hlt, Record.size, hbare.size]
  omega

/-- Records are parsed only where their names are pointers and can be decoded. -/
theorem good_of_parseAnswers {rs : List Record} (hq : 12 ≤ q) (hp : q + 5 ≤ p)
    (hrs : RecordsAt m q p rs)
    (hplain : ∀ r ∈ rs, ∀ is ∈ r.names, Plain is)
    (hrun : parseAnswers h fuel (asked m q) rs.length p = .ok (rs.map Record.answer)) :
    ∀ r ∈ rs, r.Bare ∧ ∀ is ∈ r.names, Decodes h is := by
  induction rs generalizing p with
  | nil => exact fun r hr => absurd hr List.not_mem_nil
  | cons r rs ih =>
    obtain ⟨hname, hf, hrest⟩ := hrs
    obtain ⟨hr, hothers⟩ := List.forall_mem_cons.mp hplain
    obtain ⟨⟨a, p'⟩, ha, hrun⟩ := bind_eq_ok.mp hrun
    obtain ⟨as, has, hrun⟩ := bind_eq_ok.mp hrun
    obtain ⟨rfl, rfl⟩ := List.cons.inj (Except.ok.inj hrun)
    obtain ⟨hbare, hd, rfl⟩ := good_of_parseAnswer hq hp hname hf hr ha
    exact List.forall_mem_cons.mpr ⟨⟨hbare, hd⟩, ih (by omega) hrest hothers has⟩

end

/-! ### Responses -/

section

variable {h : Heap} {m : Msg} {q p e id type : ℕ} {s : Response}

/-- The zero byte at the end of a name of labels is the first one. -/
theorem end_of_labels {ls : List (List UInt8)} (hname : NameAt m q p (ls.map .label))
    (hplain : ∀ l ∈ ls, 0 ∉ l)
    (he : p + nameSize (ls.map .label) = e + 1) :
    p ≤ e ∧ e < m.len ∧ m.data e = 0 ∧ ∀ i, p ≤ i → i < e → m.data i ≠ 0 := by
  induction ls generalizing p with
  | nil =>
    obtain ⟨hb, hzero⟩ := hname
    obtain rfl : p = e := Nat.succ.inj he
    exact ⟨Nat.le_refl p, hb.inside, hzero, fun i hi hlt => absurd hi (Nat.not_le_of_lt hlt)⟩
  | cons l ls ih =>
    obtain ⟨hl, hothers⟩ := List.forall_mem_cons.mp hplain
    obtain ⟨-, hlabel, -, hname⟩ := hname
    rw [List.map_cons, nameSize] at he
    obtain ⟨hle, hin, hzero, hfirst⟩ := ih hname hothers (by omega)
    refine ⟨by omega, hin, hzero, fun i hi hlt => ?_⟩
    by_cases hbehind : p + 1 + l.length ≤ i
    · exact hfirst i hbehind hlt
    by_cases hp : i = p
    · exact hp ▸ UInt8.pos_iff_ne_zero.mp hlabel.pos
    · have hi : i = p + 1 + (i - (p + 1)) := by omega
      rw [hi]
      exact ne_zero_of_plain hlabel hl (by omega)

theorem NameEnd.unique {q' : ℕ} (hq : NameEnd m q) (hq' : NameEnd m q') : q = q' := by
  rcases Nat.lt_trichotomy q q' with hlt | heq | hgt
  · exact absurd hq.zero (hq'.first q hq.start hlt)
  · exact heq
  · exact absurd hq'.zero (hq.first q' hq'.start hgt)

theorem WellFormed.nameEnd (hwf : WellFormed m id type s) (hplain : ∀ l ∈ s.question, 0 ∉ l) :
    NameEnd m s.nameEnd := by
  have he : 12 + nameSize (s.question.map .label) = s.nameEnd + 1 := by
    unfold Response.nameEnd
    omega
  obtain ⟨hle, hin, hzero, hfirst⟩ := end_of_labels hwf.question hplain he
  exact ⟨hle, hin, hzero, hfirst⟩

theorem WellFormed.asked (hwf : WellFormed m id type s) : Asked m s.nameEnd type :=
  ⟨hwf.qclass, hwf.qtype, hwf.count ▸ hwf.few⟩

/-- What `dns_recv` comes to, for a response whose question has no zero byte in a label. -/
theorem dnsRecv_wellFormed {fuel : ℕ} {res : Option Res} (hwf : WellFormed m id type s)
    (hplain : ∀ l ∈ s.question, 0 ∉ l) : dnsRecv h fuel m id type = .ok res ↔
      dnsParseResponse h fuel (asked m s.nameEnd) s.records.length (s.nameEnd + 5) = .ok res := by
  rw [dnsRecv_eq_ok hwf.header hwf.answers, hwf.count]
  constructor
  · intro ⟨q, hq, _, hrun⟩
    rw [hq.unique (hwf.nameEnd hplain), if_pos hwf.asked] at hrun
    exact hrun
  · exact fun hrun => ⟨s.nameEnd, hwf.nameEnd hplain, hwf.fields, (if_pos hwf.asked).trans hrun⟩

theorem parses_of_conforms (hc : Conforms h m id type) : Parses h m id type := by
  obtain ⟨hstays, hgood⟩ := hc
  have hruns := (stays_iff h m id type).mpr hstays
  refine ⟨hruns, fun s hwf => ?_⟩
  obtain ⟨hquestion, hbare, hd⟩ := hgood s hwf
  have hstart := (hwf.nameEnd hquestion).start
  simp only [dnsRecv_wellFormed hwf hquestion] at hruns ⊢
  obtain ⟨hgives, -⟩ := (exists_dnsParseResponse_iff _).mp hruns
  obtain ⟨fuel, hrun⟩ := parseAnswers_right hstart (Nat.le_refl _) hwf.records hbare hd
  refine ⟨fuel, s.records.length, ?_⟩
  rw [dnsParseResponse, if_pos hgives, hrun]
  show Except.ok (some (Res.mk (s.records.map Record.answer).length _ _)) = _
  rw [List.length_map]

/-- A response is read right only where the code can do it. -/
theorem good_of_dnsRecv {fuel size : ℕ} (hwf : WellFormed m id type s) (hplain : s.Plain)
    (hrun : dnsRecv h fuel m id type =
      .ok (some ⟨s.records.length, size, s.records.map Record.answer⟩)) :
    s.Good h := by
  obtain ⟨hquestion, hnames⟩ := hplain
  rw [dnsRecv_wellFormed hwf hquestion, dnsParseResponse] at hrun
  split at hrun
  next hgives =>
    obtain ⟨as, has, hres⟩ := bind_eq_ok.mp hrun
    obtain ⟨-, -, rfl⟩ := Res.mk.inj (Option.some.inj (Except.ok.inj hres))
    have hgood :=
      good_of_parseAnswers (hwf.nameEnd hquestion).start (Nat.le_refl _) hwf.records hnames has
    exact ⟨hquestion, fun r hr => (hgood r hr).1, fun r hr => (hgood r hr).2⟩
  next hno => cases hrun

end

/-- **When responses are read right.** It is enough that what is read stays inside the message,
that the name of every answer is a pointer, and that the decoder finds the labels of every name.
But for a zero byte in a label, and for offsets of more than one byte, that is also necessary. -/
theorem responses_right (h : Heap) (m : Msg) (id type : ℕ) :
    (Conforms h m id type → Parses h m id type) ∧
      ((∀ s, WellFormed m id type s → s.Plain) → (Parses h m id type ↔ Conforms h m id type)) := by
  refine ⟨parses_of_conforms, fun hplain => ⟨fun ⟨hruns, hright⟩ => ?_, parses_of_conforms⟩⟩
  refine ⟨(stays_iff h m id type).mp hruns, fun s hwf => ?_⟩
  obtain ⟨fuel, size, hrun⟩ := hright s hwf
  exact good_of_dnsRecv hwf (hplain s hwf) hrun

/-- A response for the name `a`, with the name written out in the answer. -/
def writtenOut : Msg :=
  ⟨fun p => [0, 1, 0x81, 0x80, 0, 1, 0, 1, 0, 0, 0, 0, 1, 97, 0, 0, 1, 0, 1,
    1, 97, 0, 0, 1, 0, 1, 0, 0, 0, 60, 0, 4, 10, 0, 0, 1].getD p 0, 36⟩

/-- What it says. -/
def writtenOutSays : Response := ⟨[[97]], [⟨[.label [97]], 1, 60, .a 0x0a000001⟩]⟩

theorem wellFormed_writtenOut : WellFormed writtenOut 1 1 writtenOutSays := by
  have hname : ∀ p, p = 12 ∨ p = 19 → NameAt writtenOut 14 p [.label [97]] := by
    rintro p (rfl | rfl)
    · exact ⟨⟨by decide, by decide, by decide⟩,
        ⟨by decide, by decide, rfl, by decide, rfl⟩, by decide,
        ⟨by decide, by decide, by decide⟩, rfl⟩
    · exact ⟨⟨by decide, by decide, by decide⟩,
        ⟨by decide, by decide, rfl, by decide, rfl⟩, by decide,
        ⟨by decide, by decide, by decide⟩, rfl⟩
  have hfields : FieldsAt writtenOut 14 22 ⟨[.label [97]], 1, 60, .a 0x0a000001⟩ :=
    ⟨by decide, by decide, by decide, by decide, by decide,
      (by decide : numAt writtenOut 32 4 = 0x0a000001)⟩
  exact ⟨by decide, by decide, ⟨by decide, by decide, by decide⟩, by decide, by decide,
    hname 12 (.inl rfl), by decide, by decide, by decide, hname 19 (.inr rfl), hfields, trivial⟩

theorem not_parses_writtenOut :
    ¬∀ (h : Heap) (m : Msg) (id type : ℕ), m.len ≤ 512 → Parses h m id type := by
  intro hall
  have hname : Plain [.label [97]] := by
    refine ⟨fun bs hbs => ?_, fun o ho => ?_⟩
    · obtain rfl := Item.label.inj (List.mem_singleton.mp hbs)
      decide
    · cases List.mem_singleton.mp ho
  have hplain : writtenOutSays.Plain :=
    ⟨List.forall_mem_singleton.mpr (by decide),
      List.forall_mem_singleton.mpr (List.forall_mem_singleton.mpr hname)⟩
  obtain ⟨-, hright⟩ := hall largeHeap writtenOut 1 1 (by decide)
  obtain ⟨fuel, size, hrun⟩ := hright writtenOutSays wellFormed_writtenOut
  obtain ⟨o, is, howner⟩ :=
    (good_of_dnsRecv wellFormed_writtenOut hplain hrun).bare _ List.mem_cons_self
  cases howner

end Cosiris.Dns
