import Cosiris.Net.Names
import Cosiris.Net.Codec

/-!
# Responses of a name server

`dns_recv` and `dns_parse_response`. The header and the question are converted in place. The
parser takes two bytes for the name of an answer, however long it is, and goes on behind the
data with the length that the message gives. It stays in the message exactly when the names
that it decodes and the fields behind them do.
-/

namespace Cosiris.Dns

open Net Codec

/-! ### The parser -/

/-- `r` of `struct dns_answer`. -/
inductive Data
  | ip (v : ℕ)
  | name (n : Option (List UInt8))

/-- `struct dns_answer`. -/
structure Answer where
  name : Option (List UInt8)
  type : ℕ
  cls : ℕ
  ttl : ℕ
  prio : ℕ
  r : Data

/-- `struct dns_res`. -/
structure Res where
  len : ℕ
  size : ℕ
  answers : List Answer

/-- A number of `n` bytes at index `p`, in network byte order. -/
def rdNum (n : ℕ) (m : Msg) (p : ℕ) : Except Stop ℕ :=
  if p + n ≤ m.len then .ok (ntoh n (getLe m.data p n)) else .error .read

/-- What the parser makes of the data of an answer of some type, at index `p`: the priority, the
data, and where the next answer is. The length `dlen` is of 16 bits. -/
def parseData (h : Heap) (fuel : ℕ) (m : Msg) (type dlen p : ℕ) : Except Stop (ℕ × Data × ℕ) :=
  if type = 1 then do
    let ip ← rdNum 4 m p
    .ok (0, .ip ip, p + dlen)
  else if type = 15 then do
    let prio ← rdNum 2 m p
    let n ← dns2hostName h m fuel ((p + 2 : ℕ) : ℤ)
    .ok (prio, .name n, p + 2 + (dlen + (2 ^ 16 - 2)) % 2 ^ 16)
  else if type = 2 ∨ type = 5 ∨ type = 16 then do
    let n ← dns2hostName h m fuel p
    .ok (0, .name n, p + dlen)
  else .ok (0, .ip 0, p + dlen)

/-- One round of the loop of `dns_parse_response`: the answer at index `p`, and where the next one
is. -/
def parseAnswer (h : Heap) (fuel : ℕ) (m : Msg) (p : ℕ) : Except Stop (Answer × ℕ) := do
  let name ← dns2hostName h m fuel p
  let type ← rdNum 2 m (p + 2)
  let cls ← rdNum 2 m (p + 4)
  let ttl ← rdNum 4 m (p + 6)
  let dlen ← rdNum 2 m (p + 10)
  let (prio, r, next) ← parseData h fuel m type dlen (p + 12)
  .ok (⟨name, type, cls, ttl, prio, r⟩, next)

/-- The loop of `dns_parse_response`. -/
def parseAnswers (h : Heap) (fuel : ℕ) (m : Msg) : ℕ → ℕ → Except Stop (List Answer)
  | 0, _ => .ok []
  | n + 1, p => do
    let (a, p) ← parseAnswer h fuel m p
    let as ← parseAnswers h fuel m n p
    .ok (a :: as)

/-- `dns_parse_response`, for `n` answers at index `p`. Without memory, `calloc` clears the bytes
from address 0 on. -/
def dnsParseResponse (h : Heap) (fuel : ℕ) (m : Msg) (n p : ℕ) : Except Stop (Option Res) :=
  if h.gives (4 + n * 20) then do
    let as ← parseAnswers h fuel m n p
    .ok (some ⟨as.length, n, as⟩)
  else .error .write

/-- The loop of `dns_recv` that looks for the end of the name of the question. -/
def skipName (m : Msg) : ℕ → ℕ → Except Stop ℕ
  | 0, _ => .error .endless
  | fuel + 1, p => do
    let c ← m.rd p
    if c ≠ 0 ∧ p < m.len then skipName m fuel (p + 1) else .ok p

/-- `buf2query`, for the question at index `s`. -/
def buf2query (m : Msg) (s : ℕ) : Except Stop Msg :=
  if s + 4 ≤ m.len then .ok ⟨swapAt 2 s (swapAt 2 (s + 2) m.data), m.len⟩ else .error .read

/-- `dns_recv`, for the message that was received. `none` stands for `NULL`. -/
def dnsRecv (h : Heap) (fuel : ℕ) (m : Msg) (id type : ℕ) : Except Stop (Option Res) :=
  if m.len < 12 then .ok none
  else
    let m : Msg := ⟨buf2dns m.data, m.len⟩
    let dns := DnsHdr.load m.data
    if dns.id ≠ id then .ok none
    else if dns.rcode ≠ 0 then .ok none
    else if dns.qCount ≠ 1 then .ok none
    else do
      let p ← skipName m (m.len + 1) 12
      let c ← m.rd p
      if c ≠ 0 then .ok none
      else do
        let m ← buf2query m (p + 1)
        if getLe m.data (p + 3) 2 ≠ 1 then .ok none
        else if getLe m.data (p + 1) 2 ≠ type then .ok none
        else if dns.ansCount > 20 then .ok none
        else dnsParseResponse h fuel m dns.ansCount (p + 5)

/-! ### More iterations -/

section

variable {h : Heap} {m : Msg} {fuel fuel' p : ℕ}

theorem bind_eq_ok {α β : Type} {x : Except Stop α} {f : α → Except Stop β} {b : β} :
    (x >>= f) = .ok b ↔ ∃ a, x = .ok a ∧ f a = .ok b := by
  cases x <;> simp [bind, Except.bind]

/-- What follows a first step can be changed where it succeeds. -/
theorem bind_mono {α β : Type} {x : Except Stop α} {f g : α → Except Stop β} {b : β}
    (hx : (x >>= f) = .ok b)
    (hfg : ∀ a, f a = .ok b → g a = .ok b) : (x >>= g) = .ok b := by
  obtain ⟨a, ha, hb⟩ := bind_eq_ok.mp hx
  exact bind_eq_ok.mpr ⟨a, ha, hfg a hb⟩

/-- A decoder that comes to the same one with more iterations. -/
theorem dns2hostLoop_mono {s : ℤ} {n : UInt8} {buf : List UInt8} {size : ℕ}
    {r : Option (List UInt8)} (hrun : dns2hostLoop h m fuel s n buf size = .ok r)
    (hle : fuel ≤ fuel') :
    dns2hostLoop h m fuel' s n buf size = .ok r := by
  induction fuel generalizing fuel' s n buf size with
  | zero => cases hrun
  | succ fuel ih =>
    obtain ⟨fuel', rfl⟩ : ∃ k, fuel' = k + 1 := ⟨fuel' - 1, by omega⟩
    have hnext {s : ℤ} {n : UInt8} {buf : List UInt8} {size : ℕ}
      (hr : dns2hostLoop h m fuel s n buf size = .ok r) :
        dns2hostLoop h m fuel' s n buf size = .ok r := ih hr (Nat.le_of_succ_le_succ hle)
    unfold dns2hostLoop at hrun ⊢
    refine bind_mono hrun fun c hrun => ?_
    split at hrun
    next hc =>
      rw [if_pos hc]
      refine bind_mono hrun fun buf hrun => ?_
      split at hrun
      next hp =>
        rw [if_pos hp]
        exact bind_mono hrun fun o hrun => hnext hrun
      next hp =>
        rw [if_neg hp]
        split at hrun
        next hbig =>
          rw [if_pos hbig]
          split at hrun
          next hg =>
            rw [if_pos hg]
            exact bind_mono hrun fun r hrun => hnext hrun
          next hg =>
            rw [if_neg hg]
            exact hrun
        next hbig =>
          rw [if_neg hbig]
          exact bind_mono hrun fun r hrun => hnext hrun
    next hc =>
      rw [if_neg hc]
      exact hrun

theorem dns2hostName_mono {s : ℤ} {r : Option (List UInt8)} (hrun : dns2hostName h m fuel s = .ok r)
    (hle : fuel ≤ fuel') :
    dns2hostName h m fuel' s = .ok r := by
  unfold dns2hostName at hrun ⊢
  split at hrun
  next hg => exact (if_pos hg).trans (dns2hostLoop_mono hrun hle)
  next hg => exact (if_neg hg).trans hrun

theorem parseData_mono {type dlen : ℕ} {r : ℕ × Data × ℕ}
    (hrun : parseData h fuel m type dlen p = .ok r) (hle : fuel ≤ fuel') :
    parseData h fuel' m type dlen p = .ok r := by
  unfold parseData at hrun ⊢
  split_ifs at hrun ⊢
  · exact hrun
  · refine bind_mono hrun fun prio hrun => ?_
    obtain ⟨n, hn, hrun⟩ := bind_eq_ok.mp hrun
    exact bind_eq_ok.mpr ⟨n, dns2hostName_mono hn hle, hrun⟩
  · obtain ⟨n, hn, hrun⟩ := bind_eq_ok.mp hrun
    exact bind_eq_ok.mpr ⟨n, dns2hostName_mono hn hle, hrun⟩
  · exact hrun

theorem parseAnswer_mono {r : Answer × ℕ} (hrun : parseAnswer h fuel m p = .ok r)
    (hle : fuel ≤ fuel') :
    parseAnswer h fuel' m p = .ok r := by
  obtain ⟨name, hname, hrun⟩ := bind_eq_ok.mp hrun
  refine bind_eq_ok.mpr ⟨name, dns2hostName_mono hname hle, ?_⟩
  refine bind_mono hrun fun type hrun => bind_mono hrun fun cls hrun =>
    bind_mono hrun fun ttl hrun => bind_mono hrun fun dlen hrun => ?_
  obtain ⟨d, hd, hrun⟩ := bind_eq_ok.mp hrun
  exact bind_eq_ok.mpr ⟨d, parseData_mono hd hle, hrun⟩

theorem parseAnswers_mono {n : ℕ} {r : List Answer} (hrun : parseAnswers h fuel m n p = .ok r)
    (hle : fuel ≤ fuel') :
    parseAnswers h fuel' m n p = .ok r := by
  induction n generalizing p r with
  | zero => exact hrun
  | succ n ih =>
    obtain ⟨a, ha, hrun⟩ := bind_eq_ok.mp hrun
    obtain ⟨as, has, hrun⟩ := bind_eq_ok.mp hrun
    exact bind_eq_ok.mpr ⟨a, parseAnswer_mono ha hle, bind_eq_ok.mpr ⟨as, ih has, hrun⟩⟩

end

/-! ### Where the parser stays inside -/

/-- The name at index `p` is decoded to its end inside the message, or there is no memory for it. -/
def Named (h : Heap) (m : Msg) (p : ℕ) : Prop := ¬h.gives 32 ∨ Ends h m p emptyText

/-- What is read of the data of an answer is inside the message. -/
def DataInside (h : Heap) (m : Msg) (type p : ℕ) : Prop :=
  (type = 1 → p + 4 ≤ m.len) ∧ (type = 15 → p + 2 ≤ m.len ∧ Named h m (p + 2)) ∧
    (type = 2 ∨ type = 5 ∨ type = 16 → Named h m p)

/-- Where the parser goes on behind data at index `p`. -/
def dataNext (type dlen p : ℕ) : ℕ :=
  if type = 15 then p + 2 + (dlen + (2 ^ 16 - 2)) % 2 ^ 16 else p + dlen

/-- What is read of an answer at index `p` is inside the message. -/
def AnswerInside (h : Heap) (m : Msg) (p : ℕ) : Prop :=
  Named h m p ∧ p + 12 ≤ m.len ∧ DataInside h m (ntoh 2 (getLe m.data (p + 2) 2)) (p + 12)

/-- Where the parser goes on behind an answer at index `p`. -/
def answerNext (m : Msg) (p : ℕ) : ℕ :=
  dataNext (ntoh 2 (getLe m.data (p + 2) 2)) (ntoh 2 (getLe m.data (p + 10) 2)) (p + 12)

/-- What is read of `n` answers from index `p` on is inside the message. -/
def AnswersInside (h : Heap) (m : Msg) : ℕ → ℕ → Prop
  | 0, _ => True
  | n + 1, p => AnswerInside h m p ∧ AnswersInside h m n (answerNext m p)

section

variable {h : Heap} {m : Msg} {p : ℕ}

theorem rdNum_eq_ok {n v : ℕ} :
    rdNum n m p = .ok v ↔ p + n ≤ m.len ∧ ntoh n (getLe m.data p n) = v := by
  unfold rdNum
  split <;> simp [*]

theorem parseData_next {fuel type dlen : ℕ} {r : ℕ × Data × ℕ}
    (hrun : parseData h fuel m type dlen p = .ok r) :
    r.2.2 = dataNext type dlen p := by
  unfold parseData at hrun
  unfold dataNext
  split_ifs at hrun with h1 h15 hname
  · obtain ⟨ip, -, hrun⟩ := bind_eq_ok.mp hrun
    cases hrun
    rw [if_neg (by omega)]
  · obtain ⟨prio, -, hrun⟩ := bind_eq_ok.mp hrun
    obtain ⟨n, -, hrun⟩ := bind_eq_ok.mp hrun
    cases hrun
    rw [if_pos h15]
  · obtain ⟨n, -, hrun⟩ := bind_eq_ok.mp hrun
    cases hrun
    rw [if_neg h15]
  · cases hrun
    rw [if_neg h15]

theorem parseData_a {fuel dlen : ℕ} {r : ℕ × Data × ℕ} : parseData h fuel m 1 dlen p = .ok r ↔
    p + 4 ≤ m.len ∧ (0, .ip (ntoh 4 (getLe m.data p 4)), p + dlen) = r := by
  rw [parseData, if_pos rfl, bind_eq_ok]
  simp only [rdNum_eq_ok, Except.ok.injEq]
  exact ⟨fun ⟨_, ⟨hin, hip⟩, hr⟩ => ⟨hin, hip ▸ hr⟩, fun ⟨hin, hr⟩ => ⟨_, ⟨hin, rfl⟩, hr⟩⟩

theorem parseData_mx {fuel dlen : ℕ} {r : ℕ × Data × ℕ} : parseData h fuel m 15 dlen p = .ok r ↔
    p + 2 ≤ m.len ∧ ∃ n, dns2hostName h m fuel ((p + 2 : ℕ) : ℤ) = .ok n ∧
      (ntoh 2 (getLe m.data p 2), .name n, p + 2 + (dlen + (2 ^ 16 - 2)) % 2 ^ 16) = r := by
  rw [parseData, if_neg (by decide), if_pos rfl]
  simp only [bind_eq_ok, rdNum_eq_ok, Except.ok.injEq]
  constructor
  · exact fun ⟨_, ⟨hin, hprio⟩, n, hn, hr⟩ => ⟨hin, n, hn, hprio ▸ hr⟩
  · exact fun ⟨hin, n, hn, hr⟩ => ⟨_, ⟨hin, rfl⟩, n, hn, hr⟩

theorem parseData_name {fuel type dlen : ℕ} {r : ℕ × Data × ℕ}
    (htype : type = 2 ∨ type = 5 ∨ type = 16) :
    parseData h fuel m type dlen p = .ok r ↔ ∃ n, dns2hostName h m fuel p = .ok n ∧
      (0, .name n, p + dlen) = r := by
  rw [parseData, if_neg (by omega), if_neg (by omega), if_pos htype]
  simp only [bind_eq_ok, Except.ok.injEq]

theorem exists_parseData_iff (type dlen : ℕ) :
    (∃ fuel r, parseData h fuel m type dlen p = .ok r) ↔ DataInside h m type p := by
  by_cases h1 : type = 1
  · have h15 : type ≠ 15 := by omega
    have hname : ¬(type = 2 ∨ type = 5 ∨ type = 16) := by omega
    subst h1
    simp only [parseData_a]
    exact ⟨fun ⟨_, _, hin, _⟩ => ⟨fun _ => hin, fun h => absurd h h15, fun h => absurd h hname⟩,
      fun hin => ⟨0, _, hin.1 rfl, rfl⟩⟩
  by_cases h15 : type = 15
  · have hname : ¬(type = 2 ∨ type = 5 ∨ type = 16) := by omega
    subst h15
    simp only [parseData_mx]
    constructor
    · intro ⟨fuel, _, hin, n, hn, _⟩
      have htotal := ends_of_name hn
      exact ⟨fun h => absurd h h1, fun _ => ⟨hin, htotal⟩, fun h => absurd h hname⟩
    · intro hin
      obtain ⟨hin, htotal⟩ := hin.2.1 rfl
      obtain ⟨fuel, n, hn⟩ := exists_name htotal
      exact ⟨fuel, _, hin, n, hn, rfl⟩
  by_cases hname : type = 2 ∨ type = 5 ∨ type = 16
  · simp only [parseData_name hname]
    constructor
    · intro ⟨fuel, _, n, hn, _⟩
      have htotal := ends_of_name hn
      exact ⟨fun h => absurd h h1, fun h => absurd h h15, fun _ => htotal⟩
    · intro hin
      obtain ⟨fuel, n, hn⟩ := exists_name (hin.2.2 hname)
      exact ⟨fuel, _, n, hn, rfl⟩
  · have hrun : parseData h 0 m type dlen p = .ok (0, .ip 0, p + dlen) := by
      rw [parseData, if_neg h1, if_neg h15, if_neg hname]
    exact iff_of_true ⟨0, _, hrun⟩
      ⟨fun h => absurd h h1, fun h => absurd h h15, fun h => absurd h hname⟩

/-- One round reads the twelve bytes from the index on, the name there and the data behind them. -/
theorem parseAnswer_eq_ok {fuel : ℕ} {r : Answer × ℕ} : parseAnswer h fuel m p = .ok r ↔
    p + 12 ≤ m.len ∧ ∃ name, dns2hostName h m fuel p = .ok name ∧ ∃ d,
      parseData h fuel m (ntoh 2 (getLe m.data (p + 2) 2)) (ntoh 2 (getLe m.data (p + 10) 2))
        (p + 12) = .ok d ∧
      (⟨name, ntoh 2 (getLe m.data (p + 2) 2), ntoh 2 (getLe m.data (p + 4) 2),
        ntoh 4 (getLe m.data (p + 6) 4), d.1, d.2.1⟩, d.2.2) = r := by
  constructor
  · intro hrun
    obtain ⟨name, hname, hrun⟩ := bind_eq_ok.mp hrun
    obtain ⟨type, htype, hrun⟩ := bind_eq_ok.mp hrun
    obtain ⟨cls, hcls, hrun⟩ := bind_eq_ok.mp hrun
    obtain ⟨ttl, httl, hrun⟩ := bind_eq_ok.mp hrun
    obtain ⟨dlen, hdlen, hrun⟩ := bind_eq_ok.mp hrun
    obtain ⟨d, hd, hrun⟩ := bind_eq_ok.mp hrun
    rw [(rdNum_eq_ok.mp htype).2, (rdNum_eq_ok.mp hcls).2, (rdNum_eq_ok.mp httl).2,
      (rdNum_eq_ok.mp hdlen).2]
    exact ⟨(rdNum_eq_ok.mp hdlen).1, name, hname, d, hd, Except.ok.inj hrun⟩
  · intro ⟨hin, name, hname, d, hd, hr⟩
    have hnum {n i : ℕ} (hi : i + n ≤ 12) :
      rdNum n m (p + i) = .ok (ntoh n (getLe m.data (p + i) n)) :=
      rdNum_eq_ok.mpr ⟨by omega, rfl⟩
    unfold parseAnswer
    rw [hname, hnum (by omega), hnum (by omega), hnum (by omega), hnum (by omega)]
    simp only [bind, Except.bind, hd, hr]

theorem exists_parseAnswer_iff :
    (∃ fuel r, parseAnswer h fuel m p = .ok r) ↔ AnswerInside h m p := by
  simp only [parseAnswer_eq_ok]
  constructor
  · intro ⟨fuel, r, hin, name, hname, d, hd, _⟩
    exact ⟨ends_of_name hname, hin,
      (exists_parseData_iff _ _).mp ⟨fuel, d, hd⟩⟩
  · intro ⟨hname, hin, hdata⟩
    obtain ⟨fuel, name, hn⟩ := exists_name hname
    obtain ⟨fuel', d, hd⟩ := (exists_parseData_iff _ (ntoh 2 (getLe m.data (p + 10) 2))).mpr hdata
    exact ⟨max fuel fuel', _, hin, name, dns2hostName_mono hn (Nat.le_max_left _ _),
      d, parseData_mono hd (Nat.le_max_right _ _), rfl⟩

theorem parseAnswer_next {fuel : ℕ} {r : Answer × ℕ} (hrun : parseAnswer h fuel m p = .ok r) :
    r.2 = answerNext m p := by
  obtain ⟨-, name, -, d, hd, rfl⟩ := parseAnswer_eq_ok.mp hrun
  exact parseData_next hd

theorem exists_parseAnswers_iff (n : ℕ) :
    (∃ fuel r, parseAnswers h fuel m n p = .ok r) ↔ AnswersInside h m n p := by
  induction n generalizing p with
  | zero => exact iff_of_true ⟨0, [], rfl⟩ trivial
  | succ n ih =>
    constructor
    · intro ⟨fuel, r, hrun⟩
      obtain ⟨a, ha, hrun⟩ := bind_eq_ok.mp hrun
      obtain ⟨as, has, hrun⟩ := bind_eq_ok.mp hrun
      have hnext := parseAnswer_next ha
      exact ⟨exists_parseAnswer_iff.mp ⟨fuel, a, ha⟩, ih.mp ⟨fuel, as, hnext ▸ has⟩⟩
    · intro ⟨hanswer, hrest⟩
      obtain ⟨fuel, a, ha⟩ := exists_parseAnswer_iff.mpr hanswer
      obtain ⟨fuel', as, has⟩ := ih.mpr hrest
      have hnext := parseAnswer_next ha
      rw [← hnext] at has
      exact ⟨max fuel fuel', a.1 :: as,
        bind_eq_ok.mpr ⟨a, parseAnswer_mono ha (Nat.le_max_left _ _),
          bind_eq_ok.mpr ⟨as, parseAnswers_mono has (Nat.le_max_right _ _), rfl⟩⟩⟩

theorem exists_dnsParseResponse_iff (n : ℕ) :
    (∃ fuel r, dnsParseResponse h fuel m n p = .ok r) ↔ h.gives (4 + n * 20) ∧
      AnswersInside h m n p := by
  unfold dnsParseResponse
  split
  next hg =>
    rw [← exists_parseAnswers_iff]
    simp only [bind_eq_ok, Except.ok.injEq, hg, true_and]
    exact ⟨fun ⟨fuel, _, as, has, _⟩ => ⟨fuel, as, has⟩,
      fun ⟨fuel, as, has⟩ => ⟨fuel, _, as, has, rfl⟩⟩
  next hg => exact iff_of_false (fun ⟨_, _, h⟩ => by cases h) fun h => hg h.1

end

/-! ### Where a response stays inside -/

/-- The first zero byte behind the header is at index `q`. -/
structure NameEnd (m : Msg) (q : ℕ) : Prop where
  start : 12 ≤ q
  inside : q < m.len
  zero : m.data q = 0
  first : ∀ i, 12 ≤ i → i < q → m.data i ≠ 0

theorem skipName_iff {m : Msg} {fuel p q : ℕ} (hfuel : m.len < p + fuel) :
    skipName m fuel p = .ok q ↔ p ≤ q ∧ q < m.len ∧ m.data q = 0 ∧ ∀ i, p ≤ i → i < q →
      m.data i ≠ 0 := by
  induction fuel generalizing p with
  | zero => exact iff_of_false (fun h => by cases h) fun h => absurd h.1 (by omega)
  | succ fuel ih =>
    unfold skipName
    rcases Nat.lt_or_ge p m.len with hp | hp
    · have hlt : (p : ℕ) < m.len := hp
      rw [rd_of_lt hp]
      show (if m.data p ≠ 0 ∧ p < m.len then skipName m fuel (p + 1) else .ok p) = .ok q ↔ _
      by_cases hc : m.data p = 0
      · rw [if_neg fun h => h.1 hc, Except.ok.injEq]
        constructor
        · rintro rfl
          exact ⟨Nat.le_refl p, hp, hc, fun i hi hq => absurd hi (Nat.not_le_of_lt hq)⟩
        · intro ⟨hq, _, _, hfirst⟩
          by_contra hne
          exact hfirst p (Nat.le_refl p) (by omega) hc
      · rw [if_pos ⟨hc, hp⟩, ih (by omega)]
        constructor
        · intro ⟨hq, hin, hzero, hfirst⟩
          refine ⟨by omega, hin, hzero, fun i hi hlt => ?_⟩
          rcases Nat.eq_or_lt_of_le hi with rfl | hi
          · exact hc
          · exact hfirst i hi hlt
        · intro ⟨hq, hin, hzero, hfirst⟩
          have hne : p ≠ q := fun h => hc (h ▸ hzero)
          exact ⟨by omega, hin, hzero, fun i hi hlt => hfirst i (by omega) hlt⟩
    · rw [rd_of_ge hp]
      exact iff_of_false (fun h => by cases h) fun h => absurd h.2.1 (by omega)

/-- The message when the answers are parsed, where the name of the question ends at index `q`. -/
def asked (m : Msg) (q : ℕ) : Msg := ⟨swapAt 2 (q + 1) (swapAt 2 (q + 3) (buf2dns m.data)), m.len⟩

/-- The header is that of a response to the query `id`. -/
def Answers (m : Msg) (id : ℕ) : Prop :=
  (DnsHdr.wire m.data).id = id ∧ (DnsHdr.wire m.data).rcode = 0 ∧ (DnsHdr.wire m.data).qCount = 1

/-- The question whose name ends at index `q` is the one that was asked, with at most 20 answers. -/
def Asked (m : Msg) (q type : ℕ) : Prop :=
  ntoh 2 (getLe m.data (q + 3) 2) = 1 ∧ ntoh 2 (getLe m.data (q + 1) 2) = type ∧
    (DnsHdr.wire m.data).ansCount ≤ 20

instance (m : Msg) (q type : ℕ) : Decidable (Asked m q type) :=
  inferInstanceAs (Decidable (_ ∧ _ ∧ _))

/-- What is read of a message is inside it: the name of the question with its end, its type and
class, and if they are those that were asked for, the answers, for which there is memory. -/
def Stays (h : Heap) (m : Msg) (id type : ℕ) : Prop :=
  12 ≤ m.len → Answers m id → ∃ q, NameEnd m q ∧ q + 5 ≤ m.len ∧
    (Asked m q type → h.gives (4 + (DnsHdr.wire m.data).ansCount * 20) ∧
      AnswersInside h (asked m q) (DnsHdr.wire m.data).ansCount (q + 5))

section

variable {h : Heap} {m : Msg} {id type p q : ℕ}

/-- The header has the first 12 bytes only. -/
theorem buf2dns_of_ge (hp : 12 ≤ p) : buf2dns m.data p = m.data p := by
  rw [buf2dns_eq]
  have hall : ∀ c ∈ dnsIn, p + 1 ≤ c.pos ∨ c.pos + c.width ≤ p := by
    have hle : ∀ c ∈ dnsIn, c.pos + c.width ≤ 12 := by decide
    exact fun c hc => .inr ((hle c hc).trans hp)
  have hget := @getLe_convert_of_apart dnsIn m.data p 1 hall
  exact UInt8.toNat_inj.mp hget

theorem getLe_buf2dns (hp : 12 ≤ p) (n : ℕ) : getLe (buf2dns m.data) p n = getLe m.data p n :=
  getLe_congr fun i _ => buf2dns_of_ge (by omega)

/-- The class and the type of the question, as they are compared. -/
theorem getLe_asked (hq : 12 ≤ q) :
    getLe (asked m q).data (q + 3) 2 = ntoh 2 (getLe m.data (q + 3) 2) ∧
    getLe (asked m q).data (q + 1) 2 = ntoh 2 (getLe m.data (q + 1) 2) := by
  unfold asked
  constructor
  · rw [getLe_swapAt_disjoint (by omega), getLe_swapAt, getLe_buf2dns (by omega)]
  · rw [getLe_swapAt, getLe_swapAt_disjoint (by omega), getLe_buf2dns (by omega)]

theorem dnsRecv_of_not (hno : ¬(12 ≤ m.len ∧ Answers m id)) (fuel : ℕ) :
    dnsRecv h fuel m id type = .ok none := by
  have hload : DnsHdr.load (buf2dns m.data) = DnsHdr.wire m.data := by rw [buf2dns_eq, load_dnsIn]
  unfold dnsRecv
  dsimp only
  rw [hload]
  split_ifs with hlen hid hrcode hcount
  any_goals rfl
  all_goals exact absurd ⟨by omega, not_not.mp hid, not_not.mp hrcode, not_not.mp hcount⟩ hno

/-- What `dns_recv` comes to behind the question. -/
theorem recvQuestion (hq : 12 ≤ q) (hin : q + 5 ≤ m.len) {fuel : ℕ} {n : ℕ}
    (hn : n = (DnsHdr.wire m.data).ansCount) :
    (buf2query ⟨buf2dns m.data, m.len⟩ (q + 1)).bind (fun m =>
      if getLe m.data (q + 3) 2 ≠ 1 then .ok none
      else if getLe m.data (q + 1) 2 ≠ type then .ok none
      else if n > 20 then .ok none
      else dnsParseResponse h fuel m n (q + 5)) =
    if Asked m q type then dnsParseResponse h fuel (asked m q) n (q + 5) else .ok none := by
  have hbuf : buf2query ⟨buf2dns m.data, m.len⟩ (q + 1) = .ok (asked m q) := if_pos hin
  obtain ⟨hclass, htype⟩ := @getLe_asked m q hq
  rw [hbuf]
  simp only [Except.bind, hclass, htype]
  by_cases hasked : Asked m q type
  · obtain ⟨h1, h2, h3⟩ := id hasked
    rw [if_pos hasked, if_neg (not_not.mpr h1), if_neg (not_not.mpr h2), if_neg (by omega)]
  · rw [if_neg hasked]
    split_ifs with h1 h2 h3
    · rfl
    · rfl
    · rfl
    · exact absurd ⟨not_not.mp h1, not_not.mp h2, by omega⟩ hasked

theorem dnsRecv_eq_ok {fuel : ℕ} {r : Option Res} (hlen : 12 ≤ m.len) (hans : Answers m id) :
    dnsRecv h fuel m id type = .ok r ↔ ∃ q, NameEnd m q ∧ q + 5 ≤ m.len ∧
      (if Asked m q type then
        dnsParseResponse h fuel (asked m q) (DnsHdr.wire m.data).ansCount (q + 5)
        else .ok none) = .ok r := by
  have hload : DnsHdr.load (buf2dns m.data) = DnsHdr.wire m.data := by rw [buf2dns_eq, load_dnsIn]
  obtain ⟨hid, hrcode, hcount⟩ := hans
  unfold dnsRecv
  dsimp only
  rw [hload, if_neg (by omega), if_neg (not_not.mpr hid), if_neg (not_not.mpr hrcode),
    if_neg (not_not.mpr hcount),
    bind_eq_ok]
  refine exists_congr fun q => ?_
  have hskip : skipName ⟨buf2dns m.data, m.len⟩ (m.len + 1) 12 = .ok q ↔ NameEnd m q := by
    have hfuel : m.len < 12 + (m.len + 1) := by omega
    rw [@skipName_iff ⟨buf2dns m.data, m.len⟩ (m.len + 1) 12 q hfuel]
    constructor
    · intro ⟨hq, hin, hzero, hfirst⟩
      exact ⟨hq, hin, (buf2dns_of_ge hq).symm.trans hzero,
        fun i hi hlt h0 => hfirst i hi hlt ((buf2dns_of_ge hi).trans h0)⟩
    · intro hend
      exact ⟨hend.start, hend.inside, (buf2dns_of_ge hend.start).trans hend.zero,
        fun i hi hlt h0 => hend.first i hi hlt ((buf2dns_of_ge hi).symm.trans h0)⟩
  rw [hskip]
  refine and_congr_right fun hend => ?_
  have hzero : buf2dns m.data q = 0 := (buf2dns_of_ge hend.start).trans hend.zero
  have hrd : (⟨buf2dns m.data, m.len⟩ : Msg).rd q = .ok (buf2dns m.data q) := rd_of_lt hend.inside
  rw [hrd, hzero]
  by_cases hin : q + 5 ≤ m.len
  · rw [← recvQuestion hend.start hin rfl, and_iff_right hin]
    rfl
  · refine iff_of_false (fun hrun => ?_) fun h => hin h.1
    have hbuf : buf2query ⟨buf2dns m.data, m.len⟩ (q + 1) = .error .read := if_neg hin
    replace hrun : ((buf2query ⟨buf2dns m.data, m.len⟩ (q + 1)).bind _) = .ok r := hrun
    rw [hbuf] at hrun
    cases hrun

theorem stays_iff (h : Heap) (m : Msg) (id type : ℕ) :
    (∃ fuel r, dnsRecv h fuel m id type = .ok r) ↔ Stays h m id type := by
  by_cases hno : 12 ≤ m.len ∧ Answers m id
  · obtain ⟨hlen, hans⟩ := hno
    simp only [dnsRecv_eq_ok hlen hans]
    constructor
    · intro ⟨fuel, r, q, hend, hin, hrun⟩ _ _
      refine ⟨q, hend, hin, fun hasked => ?_⟩
      rw [if_pos hasked] at hrun
      exact (exists_dnsParseResponse_iff _).mp ⟨fuel, r, hrun⟩
    · intro hstays
      obtain ⟨q, hend, hin, hparse⟩ := hstays hlen hans
      by_cases hasked : Asked m q type
      · obtain ⟨fuel, r, hrun⟩ := (exists_dnsParseResponse_iff _).mpr (hparse hasked)
        exact ⟨fuel, r, q, hend, hin, (if_pos hasked).trans hrun⟩
      · exact ⟨0, none, q, hend, hin, if_neg hasked⟩
  · exact iff_of_true ⟨0, none, dnsRecv_of_not hno 0⟩ fun hlen hans => absurd ⟨hlen, hans⟩ hno

end

end Cosiris.Dns
