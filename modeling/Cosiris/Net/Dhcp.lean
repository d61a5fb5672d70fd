import Cosiris.Net.Dns

/-!
# The options of a DHCP message

`dhcp_parse_opts` takes every option for a code, a length and a value. The pad byte 0 has no
length. Two of them that follow each other look like an option without a value; a single one
takes the code behind it for its length.
-/

namespace Cosiris.Dhcp

open Net (ntoh)
open Dns (Msg Stop)

/-! ### The parser -/

/-- Read the byte at index `p`. -/
def rd (m : Msg) (p : ℕ) : Except Stop UInt8 := if p < m.len then .ok (m.data p) else .error .read

/-- Read the 32 bit number at index `p`, in network byte order. -/
def rdWord (m : Msg) (p : ℕ) : Except Stop ℕ :=
  if p + 4 ≤ m.len then .ok (ntoh 4 (getLe m.data p 4)) else .error .read

/-- Up to four addresses, and their number. -/
structure Addrs where
  addr : ℕ → ℕ
  num : UInt8

/-- `struct dhcp_opts`. -/
structure DhcpOpts where
  type : UInt8
  subnetMask : ℕ
  routers : Addrs
  dns : Addrs
  leaseTime : ℕ
  serverId : ℕ

/-- The options after `memset`. -/
def cleared : DhcpOpts := ⟨0, 0, ⟨fun _ => 0, 0⟩, ⟨fun _ => 0, 0⟩, 0, 0⟩

/-- The loop over the addresses of an option, with so many rounds left of four. -/
def addrsLoop (m : Msg) : ℕ → ℕ → UInt8 → Addrs → Except Stop (Addrs × ℕ × UInt8)
  | 0, p, len, a => .ok (a, p, len)
  | left + 1, p, len, a =>
    if len > 0 then do
      let w ← rdWord m p
      addrsLoop m left (p + 4) (len - 4) ⟨Function.update a.addr (3 - left) w, a.num + 1⟩
    else .ok (a, p, len)

/-- The `switch` over the code `op` of an option with the value at index `p`. What is left of the
length is skipped. The debug message for an unknown option reads a byte of the value. -/
def parseOpt (m : Msg) (op : UInt8) (p : ℕ) (len : UInt8)
  (opts : DhcpOpts) : Except Stop (DhcpOpts × ℕ) :=
  if op = 53 then do
    let type ← rd m p
    .ok ({ opts with type := type }, p + len.toNat)
  else if op = 1 then do
    let w ← rdWord m p
    .ok ({ opts with subnetMask := w }, p + len.toNat)
  else if op = 3 then do
    let (a, p, len) ← addrsLoop m 4 p len opts.routers
    .ok ({ opts with routers := a }, p + len.toNat)
  else if op = 6 then do
    let (a, p, len) ← addrsLoop m 4 p len opts.dns
    .ok ({ opts with dns := a }, p + len.toNat)
  else if op = 51 then do
    let w ← rdWord m p
    .ok ({ opts with leaseTime := w }, p + len.toNat)
  else if op = 54 then do
    let w ← rdWord m p
    .ok ({ opts with serverId := w }, p + len.toNat)
  else do
    let _ ← rd m p
    .ok (opts, p + len.toNat)

/-- The loop over the options, for a number of rounds. -/
def parseLoop (m : Msg) : ℕ → ℕ → DhcpOpts → Except Stop DhcpOpts
  | 0, _, _ => .error .endless
  | rounds + 1, p, opts =>
    if p < m.len ∧ m.data p ≠ 255 then do
      let len ← rd m (p + 1)
      let (opts, p) ← parseOpt m (m.data p) (p + 2) len opts
      parseLoop m rounds p opts
    else .ok opts

/-- `MAGIC_COOKIE`. -/
def magicCookie : ℕ := 0x63825363

/-- `dhcp_parse_opts`: the value that is returned and the options. The cookie is at offset 236,
the options follow it. -/
def dhcpParseOpts (m : Msg) (opts : DhcpOpts) : Except Stop (ℤ × DhcpOpts) := do
  let cookie ← rdWord m 236
  if cookie ≠ magicCookie then .ok (-1, opts)
  else do
    let opts ← parseLoop m (m.len + 1) 240 cleared
    .ok (0, opts)

/-! ### Where the parser comes -/

/-- The rounds over the addresses of an option. A length that is no multiple of four does not come
down to 0. -/
def addrRounds (len : UInt8) : ℕ := if len.toNat % 4 = 0 then min 4 (len.toNat / 4) else 4

/-- The bytes of the value that are read. -/
def valueReads (op len : UInt8) : ℕ :=
  if op = 3 ∨ op = 6 then 4 * addrRounds len
  else if op = 1 ∨ op = 51 ∨ op = 54 then 4
  else 1

/-- The bytes that are skipped, with those of the addresses. -/
def valueSkips (op len : UInt8) : ℕ :=
  if op = 3 ∨ op = 6 then 4 * addrRounds len + (len - .ofNat (4 * addrRounds len)).toNat
  else len.toNat

/-- From index `p` on, every option that the parser comes to has its length and what is read of
its value inside the message. -/
inductive Inside (m : Msg) : ℕ → Prop
  | done {p : ℕ} (h : m.len ≤ p ∨ m.data p = 255) : Inside m p
  | next {p : ℕ} (hdata : m.data p ≠ 255)
      (hread : p + 2 + valueReads (m.data p) (m.data (p + 1)) ≤ m.len) (hlen : p + 1 < m.len)
      (hrest : Inside m (p + 2 + valueSkips (m.data p) (m.data (p + 1)))) : Inside m p

/-- The cookie is inside the message, and if it is right, so is what is read of the options. -/
def Stays (m : Msg) : Prop :=
  240 ≤ m.len ∧ (ntoh 4 (getLe m.data 236 4) = magicCookie → Inside m 240)

variable {m : Msg}

/-- The rounds of the loop over the addresses, where `left` are left. -/
def roundsLeft (left : ℕ) (len : UInt8) : ℕ :=
  if len.toNat % 4 = 0 then min left (len.toNat / 4) else left

/-- The addresses that the loop reads. -/
def readAddrs (d : ℕ → UInt8) : ℕ → ℕ → UInt8 → Addrs → Addrs
  | 0, _, _, a => a
  | left + 1, p, len, a =>
    if len > 0 then
      readAddrs d left (p + 4) (len - 4) ⟨Function.update a.addr (3 - left) (ntoh 4 (getLe d p 4)),
        a.num + 1⟩
    else a

/-- What an option with the value at index `p` does. -/
def readOpt (d : ℕ → UInt8) (op : UInt8) (p : ℕ) (len : UInt8) (opts : DhcpOpts) : DhcpOpts :=
  if op = 53 then { opts with type := d p }
  else if op = 1 then { opts with subnetMask := ntoh 4 (getLe d p 4) }
  else if op = 3 then { opts with routers := readAddrs d 4 p len opts.routers }
  else if op = 6 then { opts with dns := readAddrs d 4 p len opts.dns }
  else if op = 51 then { opts with leaseTime := ntoh 4 (getLe d p 4) }
  else if op = 54 then { opts with serverId := ntoh 4 (getLe d p 4) }
  else opts

theorem roundsLeft_succ {left : ℕ} {len : UInt8} (hlen : len > 0) :
    roundsLeft (left + 1) len = roundsLeft left (len - 4) + 1 := by
  have hpos : 0 < len.toNat := hlen
  have hlt := len.toNat_lt
  have hsub : (len - 4).toNat = (len.toNat + 252) % 256 := by
    rw [UInt8.toNat_sub]
    have : (4 : UInt8).toNat = 4 := rfl
    omega
  unfold roundsLeft
  rw [hsub]
  split <;> split <;> omega

theorem addrsLoop_eq (left : ℕ) {p : ℕ} (hp : p ≤ m.len) (len : UInt8) (a : Addrs) :
    addrsLoop m left p len a =
      if p + 4 * roundsLeft left len ≤ m.len then
        .ok (readAddrs m.data left p len a, p + 4 * roundsLeft left len,
          len - .ofNat (4 * roundsLeft left len))
      else .error .read := by
  have hnone : UInt8.ofNat 0 = 0 := rfl
  induction left generalizing p len a with
  | zero =>
    have hzero : roundsLeft 0 len = 0 := by
      unfold roundsLeft
      split <;> omega
    rw [hzero, Nat.mul_zero, Nat.add_zero, if_pos hp, addrsLoop, readAddrs, hnone, UInt8.sub_zero]
  | succ left ih =>
    rw [addrsLoop, readAddrs]
    by_cases hlen : len > 0
    · rw [if_pos hlen, if_pos hlen, roundsLeft_succ hlen, rdWord]
      by_cases hfour : p + 4 ≤ m.len
      · have hstep : p + 4 + 4 * roundsLeft left (len - 4) =
          p + 4 * (roundsLeft left (len - 4) + 1) := by
          omega
        have hrest : len - 4 - .ofNat (4 * roundsLeft left (len - 4)) =
          len - .ofNat (4 * (roundsLeft left (len - 4) + 1)) := by
          rw [Nat.mul_add, UInt8.ofNat_add]
          grind
        rw [if_pos hfour, ← hstep, ← hrest]
        exact ih hfour ..
      · rw [if_neg hfour, if_neg (by omega)]
        rfl
    · have hzero : roundsLeft (left + 1) len = 0 := by
        have hnat : len.toNat = 0 := Nat.eq_zero_of_not_pos hlen
        rw [roundsLeft, hnat]
        rfl
      rw [if_neg hlen, if_neg hlen, hzero, Nat.mul_zero, Nat.add_zero, if_pos hp, hnone,
        UInt8.sub_zero]

theorem bind_ite {α β : Type} {c : Prop} [Decidable c] (a : α) (f : α → Except Stop β) :
    ((if c then .ok a else .error .read : Except Stop α) >>= f) = if c then f a
      else .error .read := by
  split <;> rfl

/-- An option whose value is inside the message is read. -/
theorem parseOpt_eq (op : UInt8) {p : ℕ} (hp : p ≤ m.len) (len : UInt8) (opts : DhcpOpts) :
    parseOpt m op p len opts =
      if p + valueReads op len ≤ m.len then
        .ok (readOpt m.data op p len opts, p + valueSkips op len)
      else .error .read := by
  have hrounds : roundsLeft 4 len = addrRounds len := rfl
  have hbyte : p < m.len ↔ p + 1 ≤ m.len := Iff.rfl
  unfold parseOpt readOpt
  rw [addrsLoop_eq 4 hp, addrsLoop_eq 4 hp, hrounds, rd, rdWord]
  simp only [bind_ite]
  by_cases h53 : op = 53
  · subst h53
    rfl
  by_cases h1 : op = 1
  · subst h1
    rfl
  by_cases h3 : op = 3
  · subst h3
    have hskip :
      valueSkips 3 len = 4 * addrRounds len + (len - .ofNat (4 * addrRounds len)).toNat :=
      rfl
    rw [hskip, ← Nat.add_assoc]
    rfl
  by_cases h6 : op = 6
  · subst h6
    have hskip :
      valueSkips 6 len = 4 * addrRounds len + (len - .ofNat (4 * addrRounds len)).toNat :=
      rfl
    rw [hskip, ← Nat.add_assoc]
    rfl
  by_cases h51 : op = 51
  · subst h51
    rfl
  by_cases h54 : op = 54
  · subst h54
    rfl
  have hreads : valueReads op len = 1 := by
    rw [valueReads, if_neg (not_or.mpr ⟨h3, h6⟩), if_neg (not_or.mpr ⟨h1, not_or.mpr ⟨h51, h54⟩⟩)]
  have hskips : valueSkips op len = len.toNat := if_neg (not_or.mpr ⟨h3, h6⟩)
  rw [if_neg h53, if_neg h1, if_neg h3, if_neg h6, if_neg h51, if_neg h54, if_neg h53, if_neg h1,
    if_neg h3, if_neg h6, if_neg h51, if_neg h54, hreads, hskips]
  rfl

/-- A round of the loop that takes an option. -/
theorem parseLoop_next {rounds p : ℕ} (hp : p < m.len) (hdata : m.data p ≠ 255)
    (hlen : p + 1 < m.len) (hread : p + 2 + valueReads (m.data p) (m.data (p + 1)) ≤ m.len)
    (opts : DhcpOpts) :
    parseLoop m (rounds + 1) p opts =
      parseLoop m rounds (p + 2 + valueSkips (m.data p) (m.data (p + 1)))
      (readOpt m.data (m.data p) (p + 2) (m.data (p + 1)) opts) := by
  rw [parseLoop, if_pos ⟨hp, hdata⟩, rd, if_pos hlen]
  show (parseOpt m (m.data p) (p + 2) (m.data (p + 1)) opts >>= _) = _
  rw [parseOpt_eq _ (by omega), if_pos hread]
  rfl

theorem parseLoop_end {rounds p : ℕ} (h : m.len ≤ p ∨ m.data p = 255) (opts : DhcpOpts) :
    parseLoop m (rounds + 1) p opts = .ok opts := by
  rw [parseLoop]
  exact if_neg fun hgo => h.elim (Nat.not_le.mpr hgo.1) hgo.2

theorem parseLoop_iff {rounds p : ℕ} (hpos : 0 < rounds) (hrounds : m.len < p + rounds)
    (opts : DhcpOpts) :
    (∃ opts', parseLoop m rounds p opts = .ok opts') ↔ Inside m p := by
  induction rounds generalizing p opts with
  | zero => exact absurd hpos (Nat.lt_irrefl 0)
  | succ rounds ih =>
    by_cases hend : m.len ≤ p ∨ m.data p = 255
    · exact iff_of_true ⟨opts, parseLoop_end hend opts⟩ (.done hend)
    · obtain ⟨hp, hdata⟩ := not_or.mp hend
      have hmore := Nat.not_le.mp hp
      by_cases hread : p + 1 < m.len ∧ p + 2 + valueReads (m.data p) (m.data (p + 1)) ≤ m.len
      · rw [parseLoop_next hmore hdata hread.1 hread.2, ih (by omega) (by omega)]
        refine ⟨.next hdata hread.2 hread.1, fun h => ?_⟩
        cases h with
        | done h => exact absurd h hend
        | next _ _ _ hrest => exact hrest
      · refine iff_of_false (fun ⟨opts', h⟩ => ?_) fun h => ?_
        · rw [parseLoop, if_pos ⟨hmore, hdata⟩, rd] at h
          by_cases hlen : p + 1 < m.len
          · rw [if_pos hlen] at h
            change (parseOpt m (m.data p) (p + 2) (m.data (p + 1)) opts >>= _) = _ at h
            rw [parseOpt_eq _ (by omega), if_neg fun hin => hread ⟨hlen, hin⟩] at h
            cases h
          · rw [if_neg hlen] at h
            cases h
        · cases h with
          | done h => exact hend h
          | next _ hin hlen _ => exact hread ⟨hlen, hin⟩

theorem dhcpParseOpts_eq (hlen : 240 ≤ m.len) (hcookie : ntoh 4 (getLe m.data 236 4) = magicCookie)
    (opts : DhcpOpts) :
    dhcpParseOpts m opts = (parseLoop m (m.len + 1) 240 cleared).map fun opts => (0, opts) := by
  unfold dhcpParseOpts
  rw [rdWord, if_pos hlen, hcookie]
  cases parseLoop m (m.len + 1) 240 cleared with
  | error e => rfl
  | ok opts => rfl

theorem stays_iff (m : Msg) (opts : DhcpOpts) : (∃ r, dhcpParseOpts m opts = .ok r) ↔ Stays m := by
  have hloop := parseLoop_iff (m := m) (p := 240) (Nat.succ_pos m.len) (by omega) cleared
  unfold Stays
  by_cases hlen : 240 ≤ m.len
  · by_cases hcookie : ntoh 4 (getLe m.data 236 4) = magicCookie
    · rw [dhcpParseOpts_eq hlen hcookie]
      refine Iff.trans ?_ (hloop.trans ⟨fun h => ⟨hlen, fun _ => h⟩, fun h => h.2 hcookie⟩)
      cases parseLoop m (m.len + 1) 240 cleared with
      | error e => exact iff_of_false (fun ⟨_, h⟩ => nomatch h) fun ⟨_, h⟩ => nomatch h
      | ok opts' => exact iff_of_true ⟨_, rfl⟩ ⟨_, rfl⟩
    · refine iff_of_true ⟨(-1, opts), ?_⟩ ⟨hlen, fun h => absurd h hcookie⟩
      simp only [dhcpParseOpts, rdWord, if_pos hlen, bind, Except.bind, ne_eq, hcookie,
        not_false_eq_true, if_true]
  · refine iff_of_false (fun ⟨_, h⟩ => ?_) fun h => hlen h.1
    unfold dhcpParseOpts at h
    rw [rdWord, if_neg hlen] at h
    cases h

/-! ### Well-formed options -/

/-- A part of the option area: a pad byte, or a code with a value. -/
inductive Opt
  | pad
  | option (code : UInt8) (value : List UInt8)

/-- The bytes of a part. -/
def Opt.bytes : Opt → List UInt8
  | .pad => [0]
  | .option code value => code :: .ofNat value.length :: value

/-- A code is none of those without a length, and a value has the length that its code asks for. -/
def Opt.Proper : Opt → Prop
  | .pad => True
  | .option code value =>
      code ≠ 0 ∧ code ≠ 255 ∧ value.length < 256 ∧ (code = 53 → value.length = 1) ∧
      (code = 1 ∨ code = 51 ∨ code = 54 → value.length = 4) ∧
      (code = 3 ∨ code = 6 → value ≠ [] ∧ value.length % 4 = 0)

/-- The options without the pad bytes. -/
def optionsOf : List Opt → List (UInt8 × List UInt8)
  | [] => []
  | .pad :: os => optionsOf os
  | .option code value :: os => (code, value) :: optionsOf os

/-- A message with the right cookie and a well-formed option area. -/
structure WellFormed (m : Msg) (os : List Opt) : Prop where
  cookie : ntoh 4 (getLe m.data 236 4) = magicCookie
  proper : ∀ o ∈ os, o.Proper
  once : ((optionsOf os).map Prod.fst).Nodup
  area : getBytes m.data 240 (os.flatMap Opt.bytes ++ [255]).length = os.flatMap Opt.bytes ++ [255]
  inside : 240 + (os.flatMap Opt.bytes).length < m.len

/-- A number in network byte order. -/
def bigEndian (bs : List UInt8) : ℕ := leVal bs.reverse

/-- The first four addresses of a value, before those that are there. -/
def putAddrs (value : List UInt8) (a : Addrs) : Addrs :=
  ⟨fun i => if i < 4 ∧ 4 * i < value.length then bigEndian ((value.drop (4 * i)).take 4)
    else a.addr i, a.num + .ofNat (min 4 (value.length / 4))⟩

/-- The parsed options are those of the message. What is not there is 0. -/
structure Matches (opts : DhcpOpts) (vs : List (UInt8 × List UInt8)) : Prop where
  type : opts.type = (vs.lookup 53).elim 0 fun value => value.headD 0
  subnetMask : opts.subnetMask = (vs.lookup 1).elim 0 bigEndian
  routers : opts.routers = (vs.lookup 3).elim cleared.routers fun value =>
      putAddrs value cleared.routers
  dns : opts.dns = (vs.lookup 6).elim cleared.dns fun value => putAddrs value cleared.dns
  leaseTime : opts.leaseTime = (vs.lookup 51).elim 0 bigEndian
  serverId : opts.serverId = (vs.lookup 54).elim 0 bigEndian

/-- The parser stays inside the message, and a well-formed option area gives its options. -/
def Right (m : Msg) : Prop :=
  (∀ opts, ∃ r, dhcpParseOpts m opts = .ok r) ∧
    ∀ os, WellFormed m os → ∀ opts, ∃ opts', dhcpParseOpts m opts = .ok (0, opts') ∧
      Matches opts' (optionsOf os)

/-- Every pad byte is followed by another one, two by two. -/
def Paired : List Opt → Prop
  | [] => True
  | .option _ _ :: os => Paired os
  | .pad :: .pad :: os => Paired os
  | .pad :: _ => False

/-! ### What a well-formed option does -/

/-- What an option does. -/
def place (code : UInt8) (value : List UInt8) (opts : DhcpOpts) : DhcpOpts :=
  if code = 53 then { opts with type := value.headD 0 }
  else if code = 1 then { opts with subnetMask := bigEndian value }
  else if code = 3 then { opts with routers := putAddrs value opts.routers }
  else if code = 6 then { opts with dns := putAddrs value opts.dns }
  else if code = 51 then { opts with leaseTime := bigEndian value }
  else if code = 54 then { opts with serverId := bigEndian value }
  else opts

/-- What options do, one after the other. -/
def placeAll (vs : List (UInt8 × List UInt8)) (opts : DhcpOpts) : DhcpOpts :=
  vs.foldl (fun o v => place v.1 v.2 o) opts

/-- A part of the options that the code `c` alone changes is what its value makes of it. -/
theorem placeAll_field {α : Type} (f : DhcpOpts → α) (c : UInt8) (g : List UInt8 → α → α)
    (h : ∀ code value o, f (place code value o) = if code = c then g value (f o) else f o)
    {vs : List (UInt8 × List UInt8)} (hvs : (vs.map Prod.fst).Nodup) (opts : DhcpOpts) :
    f (placeAll vs opts) = (vs.lookup c).elim (f opts) fun value => g value (f opts) := by
  induction vs generalizing opts with
  | nil => rfl
  | cons v vs ih =>
    obtain ⟨code, value⟩ := v
    rw [List.map_cons, List.nodup_cons] at hvs
    have hplace := h code value opts
    show f (placeAll vs (place code value opts)) = _
    rw [ih hvs.2, hplace, List.lookup_cons]
    by_cases hcode : code = c
    · subst hcode
      have hnone : vs.lookup code = none := by
        rw [List.lookup_eq_none_iff]
        intro v hv
        exact bne_iff_ne.mpr fun h =>
          hvs.1 (by rw [show (code, value).1 = v.1 from h]; exact List.mem_map_of_mem hv)
      rw [hnone, if_pos rfl, beq_self_eq_true]
      rfl
    · rw [if_neg hcode, beq_false_of_ne (Ne.symm hcode)]

theorem matches_placeAll {vs : List (UInt8 × List UInt8)} (hvs : (vs.map Prod.fst).Nodup) :
    Matches (placeAll vs cleared) vs := by
  constructor
  · exact placeAll_field DhcpOpts.type 53 (fun value _ => value.headD 0) (fun code value o => by
      unfold place; split_ifs <;> simp_all) hvs cleared
  · exact placeAll_field DhcpOpts.subnetMask 1 (fun value _ => bigEndian value)
      (fun code value o => by
      unfold place; split_ifs <;> simp_all) hvs cleared
  · exact placeAll_field DhcpOpts.routers 3 putAddrs (fun code value o => by
      unfold place; split_ifs <;> simp_all) hvs cleared
  · exact placeAll_field DhcpOpts.dns 6 putAddrs (fun code value o => by
      unfold place; split_ifs <;> simp_all) hvs cleared
  · exact placeAll_field DhcpOpts.leaseTime 51 (fun value _ => bigEndian value)
      (fun code value o => by
      unfold place; split_ifs <;> simp_all) hvs cleared
  · exact placeAll_field DhcpOpts.serverId 54 (fun value _ => bigEndian value)
      (fun code value o => by
      unfold place; split_ifs <;> simp_all) hvs cleared

theorem ntoh_getLe {d : ℕ → UInt8} {p : ℕ} {bs : List UInt8} (hbs : getBytes d p 4 = bs)
    (hlen : bs.length = 4) :
    ntoh 4 (getLe d p 4) = bigEndian bs := by
  have hback := leBytes_leVal bs
  rw [hlen] at hback
  rw [getLe, hbs, ntoh, hback, bigEndian]

theorem readAddrs_eq {d : ℕ → UInt8} {left : ℕ} (hleft : left ≤ 4) {p : ℕ} {value : List UInt8}
    (hvalue : getBytes d p value.length = value)
    (hfour : value.length % 4 = 0) (hlt : value.length < 256) (a : Addrs) :
    readAddrs d left p (.ofNat value.length) a =
      ⟨fun i => if 4 - left ≤ i ∧ i < 4 ∧ 4 * (i - (4 - left)) < value.length then
          bigEndian ((value.drop (4 * (i - (4 - left)))).take 4) else a.addr i,
        a.num + .ofNat (min left (value.length / 4))⟩ := by
  induction left generalizing p value a with
  | zero =>
    have hnone (i : ℕ) : ¬(4 - 0 ≤ i ∧ i < 4 ∧ 4 * (i - (4 - 0)) < value.length) := by omega
    simp only [readAddrs, hnone, if_false, Nat.zero_min]
    rw [show UInt8.ofNat 0 = 0 from rfl, UInt8.add_zero]
  | succ left ih =>
    rw [readAddrs]
    by_cases hlen : value.length = 0
    · have hnone (i : ℕ) :
        ¬(4 - (left + 1) ≤ i ∧ i < 4 ∧ 4 * (i - (4 - (left + 1))) < value.length) := by
        omega
      simp only [hnone, if_false]
      rw [hlen, if_neg (by decide), Nat.zero_div, Nat.min_zero, show UInt8.ofNat 0 = 0 from rfl,
        UInt8.add_zero]
    · obtain ⟨hhead, htail⟩ := getBytes_split hvalue (show 4 ≤ value.length by omega)
      have hnat : (UInt8.ofNat value.length).toNat = value.length := UInt8.toNat_ofNat_of_lt' hlt
      have hpos : UInt8.ofNat value.length > 0 := by
        show 0 < (UInt8.ofNat value.length).toNat
        omega
      have hsub : UInt8.ofNat value.length - 4 = .ofNat (value.drop 4).length := by
        rw [List.length_drop, ← UInt8.toNat_inj,
          UInt8.toNat_sub_of_le _ _ (show 4 ≤ (UInt8.ofNat value.length).toNat by omega), hnat,
          UInt8.toNat_ofNat_of_lt' (show value.length - 4 < 256 by omega)]
        rfl
      rw [if_pos hpos, hsub,
        ih (by omega) htail (by rw [List.length_drop]; omega) (by rw [List.length_drop]; omega),
        ntoh_getLe hhead (by rw [List.length_take]; omega)]
      have hnum : a.num + 1 + .ofNat (min left ((value.drop 4).length / 4)) =
          a.num + .ofNat (min (left + 1) (value.length / 4)) := by
        have hmin : min (left + 1) (value.length / 4) =
          1 + min left ((value.drop 4).length / 4) := by
          rw [List.length_drop]
          omega
        rw [hmin, UInt8.ofNat_add, UInt8.add_assoc]
        rfl
      have haddr (i : ℕ) :
        (if 4 - left ≤ i ∧ i < 4 ∧ 4 * (i - (4 - left)) < (value.drop 4).length then
          bigEndian (((value.drop 4).drop (4 * (i - (4 - left)))).take 4)
          else Function.update a.addr (3 - left) (bigEndian (value.take 4)) i) =
          if 4 - (left + 1) ≤ i ∧ i < 4 ∧ 4 * (i - (4 - (left + 1))) < value.length then
            bigEndian ((value.drop (4 * (i - (4 - (left + 1))))).take 4) else a.addr i := by
        rw [List.drop_drop, List.length_drop]
        by_cases hi : i = 3 - left
        · have hzero : 4 * (i - (4 - (left + 1))) = 0 := by omega
          rw [hi, if_neg (by omega), Function.update_self, ← hi, hzero, if_pos (by omega),
            List.drop_zero]
        · rw [Function.update_of_ne hi]
          by_cases hin : 4 - left ≤ i ∧ i < 4 ∧ 4 * (i - (4 - left)) < value.length - 4
          · rw [if_pos hin, if_pos (by omega)]
            congr 3
            omega
          · rw [if_neg hin, if_neg (by omega)]
      simp only [haddr, hnum]

theorem readAddrs_four {d : ℕ → UInt8} {p : ℕ} {value : List UInt8}
    (hvalue : getBytes d p value.length = value)
    (hfour : value.length % 4 = 0) (hlt : value.length < 256) (a : Addrs) :
    readAddrs d 4 p (.ofNat value.length) a = putAddrs value a := by
  rw [readAddrs_eq (Nat.le_refl 4) hvalue hfour hlt, putAddrs]
  simp only [Nat.sub_self, Nat.sub_zero, Nat.zero_le, true_and]

theorem readOpt_eq {d : ℕ → UInt8} {p : ℕ} {code : UInt8} {value : List UInt8}
    (hproper : (Opt.option code value).Proper)
    (hvalue : getBytes d p value.length = value) (opts : DhcpOpts) :
    readOpt d code p (.ofNat value.length) opts = place code value opts := by
  obtain ⟨-, -, hlt, hone, hword, haddrs⟩ := hproper
  unfold readOpt place
  split_ifs with h53 h1 h3 h6 h51 h54
  · have hbyte : d p = value.headD 0 := by
      rw [← hvalue, hone h53]
      rfl
    rw [hbyte]
  · rw [ntoh_getLe (by rwa [hword (.inl h1)] at hvalue) (hword (.inl h1))]
  · rw [readAddrs_four hvalue (haddrs (.inl h3)).2 hlt]
  · rw [readAddrs_four hvalue (haddrs (.inr h6)).2 hlt]
  · rw [ntoh_getLe (by rwa [hword (.inr (.inl h51))] at hvalue) (hword (.inr (.inl h51)))]
  · rw [ntoh_getLe (by rwa [hword (.inr (.inr h54))] at hvalue) (hword (.inr (.inr h54)))]
  · rfl

/-- A well-formed option is skipped whole, and at most one byte is read behind its value. -/
theorem skips_proper {code : UInt8} {value : List UInt8}
    (hproper : (Opt.option code value).Proper) :
    valueSkips code (.ofNat value.length) = value.length ∧
      valueReads code (.ofNat value.length) ≤ value.length + 1 := by
  obtain ⟨-, -, hlt, hone, hword, haddrs⟩ := hproper
  have hnat : (UInt8.ofNat value.length).toNat = value.length := UInt8.toNat_ofNat_of_lt' hlt
  unfold valueSkips valueReads
  by_cases h36 : code = 3 ∨ code = 6
  · have hrounds : addrRounds (.ofNat value.length) = min 4 (value.length / 4) := by
      rw [addrRounds, hnat]
      exact if_pos (haddrs h36).2
    have hsmall : (UInt8.ofNat (4 * min 4 (value.length / 4))).toNat =
      4 * min 4 (value.length / 4) :=
      UInt8.toNat_ofNat_of_lt' (show 4 * min 4 (value.length / 4) < 256 by omega)
    rw [if_pos h36, if_pos h36, hrounds,
      UInt8.toNat_sub_of_le _ _ (show (UInt8.ofNat (4 * min 4 (value.length / 4))).toNat ≤
        (UInt8.ofNat value.length).toNat by omega), hnat, hsmall]
    omega
  · rw [if_neg h36, if_neg h36, hnat]
    refine ⟨rfl, ?_⟩
    split
    next h =>
      rw [hword h]
      decide
    next => omega

/-- The parser takes the options of a well-formed area in which the pad bytes are paired. -/
theorem parseLoop_paired {os : List Opt} (hpaired : Paired os) (hproper : ∀ o ∈ os, o.Proper)
    {rounds p : ℕ}
    (harea : getBytes m.data p (os.flatMap Opt.bytes ++ [255]).length =
      os.flatMap Opt.bytes ++ [255])
    (hin : p + (os.flatMap Opt.bytes).length < m.len) (hrounds : m.len < p + rounds)
    (opts : DhcpOpts) :
    parseLoop m rounds p opts = .ok (placeAll (optionsOf os) opts) := by
  obtain ⟨rounds, rfl⟩ : ∃ k, rounds = k + 1 := ⟨rounds - 1, by omega⟩
  induction os using Paired.induct generalizing rounds p opts with
  | case1 =>
    have hend : m.data p = 255 := List.head_eq_of_cons_eq harea
    exact parseLoop_end (.inr hend) opts
  | case2 code value os ih =>
    have hopt := hproper _ List.mem_cons_self
    obtain ⟨hskips, hreads⟩ := skips_proper hopt
    rw [List.flatMap_cons, List.length_append] at hin
    rw [List.flatMap_cons, List.append_assoc] at harea
    obtain ⟨hbytes, hrest⟩ := getBytes_append harea
    have hsize : (Opt.option code value).bytes.length = 2 + value.length := by
      rw [Opt.bytes, List.length_cons, List.length_cons]
      omega
    have hsplit : getBytes m.data p ([code, .ofNat value.length] ++ value).length =
      [code, .ofNat value.length] ++ value :=
      hbytes
    obtain ⟨htwo, hvalue⟩ := getBytes_append hsplit
    have htwo : [m.data p, m.data (p + 1)] = [code, .ofNat value.length] := htwo
    obtain ⟨hcode, hlen⟩ := List.cons_eq_cons.mp htwo
    have hlen : m.data (p + 1) = .ofNat value.length := List.head_eq_of_cons_eq hlen
    have hvalue : getBytes m.data (p + 2) value.length = value := hvalue
    rw [hsize] at hin hrest
    rw [parseLoop_next (by omega) (hcode ▸ hopt.2.1) (by omega) (by rw [hcode, hlen]; omega), hcode,
      hlen, hskips,
      readOpt_eq hopt hvalue, Nat.add_assoc p 2]
    obtain ⟨rounds, rfl⟩ : ∃ k, rounds = k + 1 := ⟨rounds - 1, by omega⟩
    exact ih hpaired (fun o ho => hproper o (List.mem_cons_of_mem _ ho)) hrest
      (by omega) _ _ (by omega)
  | case3 os ih =>
    have hsplit : getBytes m.data p ([0, 0] ++ (os.flatMap Opt.bytes ++ [255])).length =
        [0, 0] ++ (os.flatMap Opt.bytes ++ [255]) := harea
    obtain ⟨htwo, hrest⟩ := getBytes_append hsplit
    have htwo : [m.data p, m.data (p + 1)] = [0, 0] := htwo
    obtain ⟨hcode, hlen⟩ := List.cons_eq_cons.mp htwo
    have hlen : m.data (p + 1) = 0 := List.head_eq_of_cons_eq hlen
    have hrest : getBytes m.data (p + 2) (os.flatMap Opt.bytes ++ [255]).length =
      os.flatMap Opt.bytes ++ [255] := hrest
    have hsize : ((Opt.pad :: Opt.pad :: os).flatMap Opt.bytes).length =
      (os.flatMap Opt.bytes).length + 2 := rfl
    rw [hsize] at hin
    have hreads : valueReads 0 0 = 1 := rfl
    rw [parseLoop_next (by omega) (by rw [hcode]; decide) (by omega)
      (by rw [hcode, hlen, hreads]; omega), hcode, hlen]
    obtain ⟨rounds, rfl⟩ : ∃ k, rounds = k + 1 := ⟨rounds - 1, by omega⟩
    exact ih hpaired
      (fun o ho => hproper o (List.mem_cons_of_mem _ (List.mem_cons_of_mem _ ho))) hrest
      (by omega) _ _ (by omega)
  | case4 os hne => exact absurd hpaired (by cases os <;> simp_all [Paired])

/-- When the parser is right. -/
theorem dhcp_right (m : Msg) :
    (Stays m ∧ (∀ os, WellFormed m os → Paired os) → Right m) ∧ (Right m → Stays m) := by
  refine ⟨fun ⟨hstays, hpaired⟩ =>
    ⟨fun opts => (stays_iff m opts).mpr hstays, fun os hos opts => ?_⟩,
      fun h => (stays_iff m cleared).mp (h.1 cleared)⟩
  have hrun :=
    @parseLoop_paired _ _ (hpaired os hos) hos.proper (m.len + 1) _ hos.area hos.inside
      (by omega) cleared
  refine ⟨_, ?_, matches_placeAll hos.once⟩
  rw [dhcpParseOpts_eq hstays.1 hos.cookie, hrun]
  rfl

/-- A message of `n` zero bytes but for the cookie and what follows it. -/
def message (bs : List UInt8) (n : ℕ) : Msg :=
  ⟨fun i => if i < 236 then 0 else ([0x63, 0x82, 0x53, 0x63] ++ bs).getD (i - 236) 0, n⟩

/-- A single pad byte hides the subnet mask behind it. -/
theorem not_right_pad : ¬Right (message [0, 1, 4, 255, 255, 255, 0, 255] 300) := by
  intro h
  have hwell : WellFormed (message [0, 1, 4, 255, 255, 255, 0, 255] 300)
    [.pad, .option 1 [255, 255, 255, 0]] := by
    refine ⟨by decide, ?_, by decide, by decide, by decide⟩
    simp [Opt.Proper]
  obtain ⟨opts, hrun, hmatch⟩ := h.2 _ hwell cleared
  have hmask : (dhcpParseOpts (message [0, 1, 4, 255, 255, 255, 0, 255] 300) cleared).map
    (fun r => r.2.subnetMask) = .ok 0 := by
    rfl
  rw [hrun] at hmask
  have hzero : opts.subnetMask = 0 := Except.ok.inj hmask
  rw [hmatch.subnetMask] at hzero
  exact absurd hzero (by decide)

end Cosiris.Dhcp
