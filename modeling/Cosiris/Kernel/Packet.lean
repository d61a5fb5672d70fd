import Cosiris.Lib.Prog
import Mathlib.Logic.Function.Basic
import Mathlib.Data.List.Basic

/-!
# Packets of the kernel debugger

`kdbg_get_packet` and `kdbg_put_packet` of `kdbg.c` over a serial line. A packet is `$`, its
payload, `#` and two digits of checksum; the receiver answers `+`, or `-` to have it sent again.

The line is the bytes that will arrive and those that were sent. A byte of 128 or more is a `char`
below 0, which `getDebugChar` takes for "nothing there yet". A call that waits for a byte that
never comes ends there. -/

namespace Cosiris.Kdbg

open Function Prog

/-- The way a call does not return. -/
inductive Halt where
  /-- It waits for a byte. -/
  | waiting
  deriving DecidableEq

/-- The serial line, and the buffer `kdbg_in`. -/
structure Serial where
  input : List UInt8
  output : List UInt8
  kdbgIn : ℕ → UInt8

/-- `BUFSIZE`. -/
def bufSize : ℕ := 512

/-- `'$'`. -/
def dollar : UInt8 := 36

/-- `'#'`. -/
def hash : UInt8 := 35

/-- `'+'`. -/
def plus : UInt8 := 43

/-- `'-'`. -/
def minus : UInt8 := 45

/-- `':'`. -/
def colon : UInt8 := 58

/-- `getDebugChar`. -/
def getDebugChar : Prog Halt Serial UInt8 := do
  modify fun s => { s with input := s.input.dropWhile (128 ≤ ·) }
  let s ← read
  match s.input with
  | [] => halt .waiting
  | c :: rest =>
    modify fun s => { s with input := rest }
    return c

/-- `putDebugChar`. -/
def putDebugChar (c : UInt8) : Prog Halt Serial Unit := modify fun s =>
  { s with output := s.output ++ [c] }

/-- `kdbg_in[i] = c`. -/
def setIn (i : ℕ) (c : UInt8) : Prog Halt Serial Unit := modify fun s =>
  { s with kdbgIn := update s.kdbgIn i c }

/-- `hexchars`. -/
def hexchars : List UInt8 := [48, 49, 50, 51, 52, 53, 54, 55, 56, 57, 97, 98, 99, 100, 101, 102]

/-- `hexchars[i]`. -/
def hexchar (i : UInt8) : UInt8 := hexchars.getD i.toNat 0

/-- `hex`, the -1 of a character that is no digit as the byte it becomes. -/
def hex (c : UInt8) : UInt8 :=
  if 48 ≤ c ∧ c ≤ 57 then c - 48
  else if 97 ≤ c ∧ c ≤ 102 then c - 97 + 10
  else if 65 ≤ c ∧ c ≤ 70 then c - 65 + 10
  else 255

/-! ### Sending -/

/-- The inner loop of `kdbg_put_packet`: it sends the string at `buf`, and leaves the checksum and
where `buf` is then. -/
def putBody : UInt8 → List UInt8 → Prog Halt Serial (UInt8 × List UInt8)
  | cksum, [] => pure (cksum, [])
  | cksum, c :: buf =>
    if c = 0 then pure (cksum, c :: buf)
    else do
      putDebugChar c
      putBody (cksum + c) buf

/-- The outer loop of `kdbg_put_packet`, at most `fuel` rounds. -/
def putPacketFrom : ℕ → List UInt8 → Prog Halt Serial Unit
  | 0, _ => halt .waiting
  | fuel + 1, buf => do
    putDebugChar dollar
    let (cksum, buf) ← putBody 0 buf
    putDebugChar hash
    putDebugChar (hexchar (cksum >>> 4))
    putDebugChar (hexchar (cksum % 16))
    let c ← getDebugChar
    if c = plus then return () else putPacketFrom fuel buf

/-- `kdbg_put_packet`. A round takes a byte off the line, so that there are no more rounds than
bytes. -/
def putPacket (buf : List UInt8) : Prog Halt Serial Unit := do
  let s ← read
  putPacketFrom (s.input.length + 1) buf

/-! ### Receiving -/

/-- `while ((c = getDebugChar()) != '$')`, at most `fuel` rounds. -/
def waitDollar : ℕ → Prog Halt Serial Unit
  | 0 => halt .waiting
  | fuel + 1 => do
    let c ← getDebugChar
    if c = dollar then return () else waitDollar fuel

/-- The loop that reads a payload, with `i` bytes read and their checksum, at most `fuel` rounds:
how many bytes there are and their checksum, if the buffer is large enough. -/
def readBody : ℕ → ℕ → UInt8 → Prog Halt Serial (Option (ℕ × UInt8))
  | 0, _, _ => halt .waiting
  | fuel + 1, i, cksum =>
    if i < bufSize - 1 then do
      let c ← getDebugChar
      if c = dollar then readBody fuel 0 0
      else if c = hash then return some (i, cksum)
      else
        setIn i c
        readBody fuel (i + 1) (cksum + c)
    else pure none

/-- The end of a packet: the answer to it, and if it is good where the string is that is returned.
-/
def answer (cksum : UInt8) : Prog Halt Serial (Option ℕ) := do
  let c ← getDebugChar
  let d ← getDebugChar
  if cksum ≠ (hex c <<< 4) + hex d then
    putDebugChar minus
    return none
  else
    putDebugChar plus
    let s ← read
    if s.kdbgIn 2 = colon then
      putDebugChar (s.kdbgIn 0)
      putDebugChar (s.kdbgIn 1)
      return some 3
    else return some 0

/-- The loop of `kdbg_get_packet`, at most `fuel` rounds. -/
def getPacketFrom : ℕ → Prog Halt Serial ℕ
  | 0 => halt .waiting
  | fuel + 1 => do
    let s ← read
    waitDollar (s.input.length + 1)
    let s ← read
    let body ← readBody (s.input.length + 1) 0 0
    match body with
    | none =>
      setIn (bufSize - 1) 0
      getPacketFrom fuel
    | some (i, cksum) =>
      setIn i 0
      let r ← answer cksum
      match r with
      | none => getPacketFrom fuel
      | some offset => return offset

/-- `kdbg_get_packet`: where in `kdbg_in` the string is that it returns. -/
def getPacket : Prog Halt Serial ℕ := do
  let s ← read
  getPacketFrom (s.input.length + 1)

/-- The string in the buffer from `offset` on. -/
def stringAt (buf : ℕ → UInt8) (offset : ℕ) : List UInt8 :=
  ((List.range (bufSize - offset)).map fun i => buf (offset + i)).takeWhile (· ≠ 0)

/-! ### Frames -/

/-- The checksum of a string, from `cksum` on. -/
def checksum (cksum : UInt8) (payload : List UInt8) : UInt8 := payload.foldl (· + ·) cksum

/-- The packet with a payload. -/
def frame (payload : List UInt8) : List UInt8 :=
  dollar :: payload ++ [hash, hexchar (checksum 0 payload >>> 4), hexchar (checksum 0 payload % 16)]

/-- A string that can be a payload. -/
structure Payload (payload : List UInt8) : Prop where
  ne : ∀ c ∈ payload, c ≠ 0 ∧ c ≠ dollar ∧ c ≠ hash
  length_le : payload.length ≤ 510

section

variable {payload : List UInt8} {out rest : List UInt8} {buf : ℕ → UInt8} {c : UInt8}

theorem getDebugChar_of_lt (h : c < 128) :
    getDebugChar ⟨c :: rest, out, buf⟩ = .ok c ⟨rest, out, buf⟩ := by
  have hd : (c :: rest).dropWhile (128 ≤ ·) = c :: rest :=
    List.dropWhile_cons_of_neg (by simpa using h)
  rw [getDebugChar, modify_bind]
  dsimp only
  rw [hd]
  rfl

theorem getDebugChar_of_le (h : 128 ≤ c) :
    getDebugChar ⟨c :: rest, out, buf⟩ = getDebugChar ⟨rest, out, buf⟩ := by
  have hd : (c :: rest).dropWhile (128 ≤ ·) = rest.dropWhile (128 ≤ ·) :=
    List.dropWhile_cons_of_pos (by simpa using h)
  rw [getDebugChar, modify_bind, modify_bind]
  dsimp only
  rw [hd]

/-- A program that begins with a byte of the line passes over one of 128 or more. -/
theorem bind_getDebugChar_of_le {α : Type} (f : UInt8 → Prog Halt Serial α) (h : 128 ≤ c) :
    (getDebugChar >>= f) ⟨c :: rest, out, buf⟩ = (getDebugChar >>= f) ⟨rest, out, buf⟩ := by
  show Prog.bind getDebugChar f _ = Prog.bind getDebugChar f _
  rw [Prog.bind, Prog.bind, getDebugChar_of_le h]

/-! ### What is sent -/

theorem putDebugChar_bind {α : Type} (f : Unit → Prog Halt Serial α) :
    (putDebugChar c >>= f) ⟨rest, out, buf⟩ = f () ⟨rest, out ++ [c], buf⟩ := rfl

theorem putBody_eq (h : ∀ c ∈ payload, c ≠ 0) (k : UInt8) :
    putBody k payload ⟨rest, out, buf⟩ =
      .ok (checksum k payload, []) ⟨rest, out ++ payload, buf⟩ := by
  induction payload generalizing k out with
  | nil => rw [putBody, List.append_nil]; rfl
  | cons c payload ih =>
    rw [putBody, if_neg (h c (List.mem_cons_self ..))]
    show putBody (k + c) payload ⟨rest, out ++ [c], buf⟩ = _
    rw [ih (fun d hd => h d (List.mem_cons_of_mem _ hd)), List.append_assoc]
    rfl

/-- A round sends the packet with what is left at `buf`. -/
theorem putPacketFrom_succ (h : ∀ c ∈ payload, c ≠ 0) (hc : c < 128) (fuel : ℕ) :
    putPacketFrom (fuel + 1) payload ⟨c :: rest, out, buf⟩ =
      if c = plus then .ok () ⟨rest, out ++ frame payload, buf⟩
      else putPacketFrom fuel [] ⟨rest, out ++ frame payload, buf⟩ := by
  have hframe : out ++ [dollar] ++ payload ++ [hash] ++ [hexchar (checksum 0 payload >>> 4)] ++
      [hexchar (checksum 0 payload % 16)] = out ++ frame payload := by
    simp [frame]
  rw [putPacketFrom, putDebugChar_bind, bind_of_ok (putBody_eq h 0)]
  dsimp only
  rw [putDebugChar_bind, putDebugChar_bind, putDebugChar_bind, hframe,
    bind_of_ok (getDebugChar_of_lt hc)]
  split_ifs <;> rfl

/-- A byte that asks for the packet once more. -/
def Nak (c : UInt8) : Prop := c < 128 ∧ c ≠ plus

/-- After the first packet those with no payload are sent. -/
theorem putPacketFrom_eq (h : ∀ c ∈ payload, c ≠ 0) {naks : List UInt8} (hn : ∀ c ∈ naks, Nak c)
    {fuel : ℕ}
    (hf : naks.length < fuel) :
    putPacketFrom fuel payload ⟨naks ++ plus :: rest, out, buf⟩ =
      .ok () ⟨rest,
        out ++ frame payload ++ (List.replicate naks.length (frame [])).flatten, buf⟩ := by
  induction naks generalizing payload out fuel with
  | nil =>
    obtain ⟨fuel, rfl⟩ : ∃ m, fuel = m + 1 := ⟨fuel - 1, by omega⟩
    rw [List.nil_append, putPacketFrom_succ h (by decide), if_pos rfl]
    simp
  | cons c naks ih =>
    obtain ⟨fuel, rfl⟩ : ∃ m, fuel = m + 1 := ⟨fuel - 1, by omega⟩
    have hc := hn c (List.mem_cons_self ..)
    rw [List.cons_append, putPacketFrom_succ h hc.1, if_neg hc.2,
      ih (show ∀ d ∈ ([] : List UInt8), d ≠ 0 from fun d hd => by cases hd)
        (fun d hd => hn d (List.mem_cons_of_mem _ hd)) (Nat.lt_of_succ_lt_succ hf)]
    rw [List.length_cons, List.replicate_succ, List.flatten_cons, List.append_assoc,
      List.append_assoc]

theorem length_frame (payload : List UInt8) : (frame payload).length = payload.length + 4 := by
  simp [frame]

theorem length_flatten_replicate (n : ℕ) (l : List UInt8) :
    (List.replicate n l).flatten.length = n * l.length := by
  simp [List.length_flatten]

/-- Each packet that is sent, until one is taken, has the payload. -/
def SendsFrames (payload naks : List UInt8) (s : Serial) : Prop :=
  ∃ s', putPacket payload { s with input := naks ++ [plus] } = .ok () s' ∧
    s'.output = s.output ++ (List.replicate (naks.length + 1) (frame payload)).flatten

theorem sendsFrames_iff (h : Payload payload) {naks : List UInt8} (hn : ∀ c ∈ naks, Nak c)
    (s : Serial) :
    SendsFrames payload naks s ↔ payload = [] ∨ naks = [] := by
  have heq : putPacket payload { s with input := naks ++ [plus] } =
      .ok () ⟨[], s.output ++ frame payload ++ (List.replicate naks.length (frame [])).flatten,
        s.kdbgIn⟩ :=
    putPacketFrom_eq (fun c hc => (h.ne c hc).1) hn
      (by show naks.length < (naks ++ [plus]).length + 1; rw [List.length_append]; omega)
  unfold SendsFrames
  rw [heq]
  constructor
  · rintro ⟨s', hs, hout⟩
    cases hs
    rw [List.replicate_succ, List.flatten_cons, ← List.append_assoc] at hout
    have hlen := congrArg List.length (List.append_cancel_left hout)
    rw [length_flatten_replicate, length_flatten_replicate, length_frame, length_frame] at hlen
    rcases Nat.eq_zero_or_pos naks.length with h0 | hpos
    · exact Or.inr (List.length_eq_zero_iff.mp h0)
    · have := Nat.eq_of_mul_eq_mul_left hpos hlen
      exact Or.inl (List.length_eq_zero_iff.mp (by rw [List.length_nil] at this; omega))
  · rintro (rfl | rfl)
    · exact ⟨_, rfl, by rw [List.replicate_succ, List.flatten_cons, List.append_assoc]⟩
    · exact ⟨_, rfl, by simp⟩

/-! ### What is received -/

/-- The bytes of a payload that `getDebugChar` returns. -/
def heard (payload : List UInt8) : List UInt8 := payload.filter (· < 128)

/-- The buffer with the bytes stored from `i` on. -/
def fill (buf : ℕ → UInt8) : ℕ → List UInt8 → ℕ → UInt8
  | _, [] => buf
  | i, c :: q => fill (update buf i c) (i + 1) q

theorem fill_eq (buf : ℕ → UInt8) (i : ℕ) (q : List UInt8) (j : ℕ) :
    fill buf i q j = if i ≤ j then q.getD (j - i) (buf j) else buf j := by
  induction q generalizing buf i with
  | nil => simp [fill]
  | cons c q ih =>
    rw [fill, ih]
    rcases Nat.lt_trichotomy i j with h | rfl | h
    · rw [if_pos (by omega), if_pos (by omega), update_of_ne (by omega), show j - i =
        j - (i + 1) + 1 by omega]
      rfl
    · rw [if_neg (by omega), if_pos (Nat.le_refl _), update_self, Nat.sub_self]
      rfl
    · rw [if_neg (by omega), if_neg (by omega), update_of_ne (by omega)]

theorem readBody_eq {p : List UInt8} (h : ∀ c ∈ p, c ≠ dollar ∧ c ≠ hash) {i : ℕ}
    (hi : i + p.length ≤ 510) (k : UInt8)
    {fuel : ℕ} (hf : p.length < fuel) :
    readBody fuel i k ⟨p ++ hash :: rest, out, buf⟩ =
      .ok (some (i + (heard p).length, checksum k (heard p))) ⟨rest, out,
        fill buf i (heard p)⟩ := by
  induction p generalizing i k buf fuel with
  | nil =>
    obtain ⟨fuel, rfl⟩ : ∃ m, fuel = m + 1 := ⟨fuel - 1, by omega⟩
    rw [readBody, if_pos (by unfold bufSize; omega), List.nil_append,
      bind_of_ok (getDebugChar_of_lt (by decide)),
      if_neg (by decide), if_pos rfl]
    rfl
  | cons c p ih =>
    obtain ⟨fuel, rfl⟩ : ∃ m, fuel = m + 1 := ⟨fuel - 1, by omega⟩
    have hp : ∀ d ∈ p, d ≠ dollar ∧ d ≠ hash := fun d hd => h d (List.mem_cons_of_mem _ hd)
    have hne := h c (List.mem_cons_self ..)
    rw [List.length_cons] at hi hf
    by_cases hc : c < 128
    · have hq : heard (c :: p) = c :: heard p := List.filter_cons_of_pos (by simpa using hc)
      rw [hq, List.length_cons, readBody, if_pos (by unfold bufSize; omega), List.cons_append,
        bind_of_ok (getDebugChar_of_lt hc), if_neg hne.1, if_neg hne.2]
      show readBody fuel (i + 1) (k + c) ⟨p ++ hash :: rest, out, update buf i c⟩ = _
      rw [ih hp (by omega) (k + c) (by omega), Nat.add_right_comm, Nat.add_assoc]
      rfl
    · have hq : heard (c :: p) = heard p := List.filter_cons_of_neg (by simpa using hc)
      have hskip : readBody (fuel + 1) i k ⟨c :: (p ++ hash :: rest), out, buf⟩ =
          readBody (fuel + 1) i k ⟨p ++ hash :: rest, out, buf⟩ := by
        rw [readBody, if_pos (by unfold bufSize; omega),
          bind_getDebugChar_of_le _ (by simpa using hc)]
      rw [hq, List.cons_append, hskip, ih hp (by omega) k (by omega)]

/-- The two digits of a checksum. -/
theorem hex_digits (k : UInt8) :
    hexchar (k >>> 4) < 128 ∧ hexchar (k % 16) < 128 ∧
      (hex (hexchar (k >>> 4)) <<< 4) + hex (hexchar (k % 16)) = k := by
  have hall : ∀ n : Fin 256, hexchar (UInt8.ofNat n >>> 4) < 128 ∧
    hexchar (UInt8.ofNat n % 16) < 128 ∧
      (hex (hexchar (UInt8.ofNat n >>> 4)) <<< 4) + hex (hexchar (UInt8.ofNat n % 16)) =
        UInt8.ofNat n := by
    decide +kernel
  have := hall ⟨k.toNat, k.toNat_lt⟩
  rwa [UInt8.ofNat_toNat] at this

/-- The buffer after a packet. -/
def received (buf : ℕ → UInt8) (q : List UInt8) : ℕ → UInt8 := update (fill buf 0 q) q.length 0

/-- What is sent after a packet that is good. -/
def reply (buf : ℕ → UInt8) : List UInt8 := if buf 2 = colon then [plus, buf 0, buf 1] else [plus]

/-- Where the string is that is returned. -/
def returned (buf : ℕ → UInt8) : ℕ := if buf 2 = colon then 3 else 0

theorem answer_eq (out : List UInt8) (buf : ℕ → UInt8) (k k' : UInt8) :
    answer k' ⟨[hexchar (k >>> 4), hexchar (k % 16)], out, buf⟩ =
      if k' = k then .ok (some (returned buf)) ⟨[], out ++ reply buf, buf⟩
      else .ok none ⟨[], out ++ [minus], buf⟩ := by
  obtain ⟨h₁, h₂, hk⟩ := hex_digits k
  rw [answer, bind_of_ok (getDebugChar_of_lt h₁), bind_of_ok (getDebugChar_of_lt h₂), hk]
  by_cases hkk : k' = k
  · rw [if_neg (by simpa using hkk), if_pos hkk, putDebugChar_bind, read_bind]
    dsimp only
    unfold returned reply
    split_ifs with hc
    · rw [putDebugChar_bind, putDebugChar_bind, List.append_assoc, List.append_assoc]
      rfl
    · rfl
  · rw [if_pos hkk, if_neg hkk]
    rfl

/-- A packet that arrives: if the checksum is that of the bytes heard, these are in the buffer
then. -/
theorem getPacket_eq (out : List UInt8) (buf : ℕ → UInt8) (h : Payload payload) :
    getPacket ⟨frame payload, out, buf⟩ =
      if checksum 0 (heard payload) = checksum 0 payload then
        .ok (returned (received buf (heard payload))) ⟨[],
          out ++ reply (received buf (heard payload)), received buf (heard payload)⟩
      else .halt .waiting ⟨[], out ++ [minus], received buf (heard payload)⟩ := by
  have hbody :
    readBody ((payload ++
      [hash, hexchar (checksum 0 payload >>> 4), hexchar (checksum 0 payload % 16)]).length + 1)
      0 0 ⟨payload ++ [hash, hexchar (checksum 0 payload >>> 4), hexchar (checksum 0 payload % 16)],
        out, buf⟩ = _ :=
    readBody_eq (fun c hc => (h.ne c hc).2) (by have := h.length_le; omega) 0
      (by rw [List.length_append]; omega)
  have hdollar : waitDollar ((frame payload).length + 1) ⟨frame payload, out, buf⟩ = .ok ()
      ⟨payload ++ [hash, hexchar (checksum 0 payload >>> 4), hexchar (checksum 0 payload % 16)],
        out, buf⟩ := by
    rw [waitDollar, frame, List.cons_append,
      bind_of_ok (getDebugChar_of_lt (by decide)), if_pos rfl]
    rfl
  rw [getPacket, read_bind]
  show getPacketFrom ((frame payload).length + 1) ⟨frame payload, out, buf⟩ = _
  rw [getPacketFrom, read_bind, bind_of_ok hdollar, read_bind, bind_of_ok hbody]
  dsimp only
  rw [Nat.zero_add]
  show (answer (checksum 0 (heard payload)) >>= _)
    ⟨[hexchar (checksum 0 payload >>> 4), hexchar (checksum 0 payload % 16)], out,
      received buf (heard payload)⟩ = _
  have hanswer :=
    answer_eq out (received buf (heard payload)) (checksum 0 payload) (checksum 0 (heard payload))
  split_ifs at hanswer ⊢ with hk
  · rw [bind_of_ok hanswer]
    rfl
  · rw [bind_of_ok hanswer]
    dsimp only
    rw [length_frame]
    rfl

/-! ### The string that is returned -/

theorem stringAt_eq {q : List UInt8} {offset : ℕ} (hq : ∀ c ∈ q, c ≠ 0)
    (hlen : offset + q.length < bufSize)
    (hget : ∀ i (h : i < q.length), buf (offset + i) = q[i]) (hend : buf (offset + q.length) = 0) :
    stringAt buf offset = q := by
  have hsplit : bufSize - offset = q.length + (1 + (bufSize - offset - q.length - 1)) := by omega
  have hfirst : (List.range q.length).map (fun i => buf (offset + i)) = q := by
    refine List.ext_getElem (by simp) fun i h₁ h₂ => ?_
    rw [List.getElem_map, List.getElem_range, hget i h₂]
  unfold stringAt
  rw [hsplit, List.range_add, List.map_append, hfirst, Nat.add_comm 1, List.range_succ_eq_map,
    List.map_cons, List.map_cons, Nat.add_zero, hend,
    List.takeWhile_append_of_pos (by simpa using hq),
      List.takeWhile_cons_of_neg (by simp),
    List.append_nil]

theorem received_of_lt {q : List UInt8} {i : ℕ} (h : i < q.length) : received buf q i = q[i] := by
  rw [received, update_of_ne (by omega), fill_eq, if_pos (Nat.zero_le _), Nat.sub_zero,
    List.getD_eq_getElem?_getD,
    List.getElem?_eq_getElem h, Option.getD_some]

@[simp] theorem received_length (q : List UInt8) : received buf q q.length = 0 := update_self ..

theorem received_of_gt {q : List UInt8} {i : ℕ} (h : q.length < i) : received buf q i = buf i := by
  rw [received, update_of_ne (by omega), fill_eq, if_pos (Nat.zero_le _), Nat.sub_zero,
    List.getD_eq_getElem?_getD,
    List.getElem?_eq_none (by omega), Option.getD_none]

/-- The string behind the first `offset` bytes heard. -/
theorem stringAt_received {q : List UInt8} {offset : ℕ} (hq : ∀ c ∈ q, c ≠ 0)
    (hlen : q.length < bufSize)
    (ho : offset ≤ q.length) : stringAt (received buf q) offset = q.drop offset := by
  have hadd : offset + (q.length - offset) = q.length := by omega
  refine stringAt_eq (fun c hc => hq c (List.mem_of_mem_drop hc)) (by rw [List.length_drop]; omega)
    (fun i h => ?_) ?_
  · rw [List.length_drop] at h
    rw [List.getElem_drop, received_of_lt (by omega)]
  · rw [List.length_drop, hadd, received_length]

/-- A colon in the place behind a sequence id. -/
theorem received_colon_iff {q : List UInt8} (h : 2 ≤ q.length) :
    received buf q 2 = colon ↔ q[2]? = some colon := by
  rcases Nat.lt_or_eq_of_le h with hlt | heq
  · rw [received_of_lt hlt, List.getElem?_eq_getElem hlt, Option.some.injEq]
  · rw [List.getElem?_eq_none (by omega), heq, received_length]
    simp [colon]

theorem stringAt_congr {buf' : ℕ → UInt8} {offset : ℕ} (h : ∀ i, offset ≤ i → buf i = buf' i) :
    stringAt buf offset = stringAt buf' offset := by
  unfold stringAt
  congr 1
  exact List.map_congr_left fun i _ => h _ (by omega)

/-- How long the sequence id of a payload is, with its colon. -/
def idLength (payload : List UInt8) : ℕ := if payload[2]? = some colon then 3 else 0

/-- The packet with this payload, on a line with nothing else on it, is received: the string that
is returned is the payload behind the sequence id. -/
def Receives (payload : List UInt8) (s : Serial) : Prop :=
  ∃ offset s', getPacket { s with input := frame payload } = .ok offset s' ∧
    offset = idLength payload ∧
    stringAt s'.kdbgIn offset = payload.drop (idLength payload)

/-- All bytes are heard, and the place behind a sequence id is one of this packet or holds no
colon. -/
def Clear (payload : List UInt8) (buf : ℕ → UInt8) : Prop :=
  (∀ c ∈ payload, c < 128) ∧ (2 ≤ payload.length ∨ buf 2 ≠ colon)

/-- Of a payload with a sequence id only the colon is heard, and what an earlier packet has left
stands for the rest. -/
def Accident (payload : List UInt8) (buf : ℕ → UInt8) : Prop :=
  payload[2]? = some colon ∧ heard payload = [colon] ∧ checksum 0 payload = colon ∧ buf 2 = colon ∧
    stringAt buf 3 = payload.drop 3

theorem heard_eq_iff : heard payload = payload ↔ ∀ c ∈ payload, c < 128 := by
  unfold heard
  rw [List.filter_eq_self]
  simp

theorem heard_length_lt (h : heard payload ≠ payload) : (heard payload).length < payload.length :=
  Nat.lt_of_le_of_ne (List.length_filter_le ..) fun he =>
    h (List.length_filter_eq_length_iff.mp he |> List.filter_eq_self.mpr)

theorem Payload.heard_ne_zero (h : Payload payload) : ∀ c ∈ heard payload, c ≠ 0 := fun c hc =>
  (h.ne c (List.mem_of_mem_filter hc)).1

theorem Payload.heard_length_lt (h : Payload payload) : (heard payload).length < bufSize := by
  have h₁ : (heard payload).length ≤ payload.length := List.length_filter_le ..
  have h₂ := h.length_le
  unfold bufSize
  omega

theorem idLength_le (payload : List UInt8) : idLength payload ≤ payload.length := by
  unfold idLength
  split_ifs with h
  · obtain ⟨hlt, -⟩ := List.getElem?_eq_some_iff.mp h
    omega
  · omega

theorem returned_eq {q : List UInt8} (h : 2 ≤ q.length ∨ buf 2 ≠ colon) :
    returned (received buf q) = idLength q := by
  unfold returned idLength
  by_cases hl : 2 ≤ q.length
  · simp only [received_colon_iff hl]
  · rw [received_of_gt (by omega), if_neg (h.resolve_left hl), List.getElem?_eq_none (by omega),
      if_neg (by simp)]

theorem receives_iff (h : Payload payload) (s : Serial) :
    Receives payload s ↔ Clear payload s.kdbgIn ∨ Accident payload s.kdbgIn := by
  have heq := getPacket_eq s.output s.kdbgIn h
  constructor
  · rintro ⟨offset, s', hget, hoff, hstr⟩
    have hget' : getPacket ⟨frame payload, s.output, s.kdbgIn⟩ = .ok offset s' := hget
    rw [heq] at hget'
    split_ifs at hget' with hk
    cases hget'
    by_cases hall : heard payload = payload
    · rw [hall] at hoff
      refine Or.inl ⟨heard_eq_iff.mp hall, ?_⟩
      by_contra hc
      obtain ⟨hl, hcolon⟩ := not_or.mp hc
      rw [not_not] at hcolon
      have h0 : idLength payload = 0 := by
        unfold idLength
        rw [List.getElem?_eq_none (by omega), if_neg (by simp)]
      rw [h0, returned, received_of_gt (by omega), if_pos hcolon] at hoff
      omega
    · refine Or.inr ?_
      have hlt := heard_length_lt hall
      -- The string returned is as long as the payload, so it is not made of the bytes heard.
      have hlong : ¬idLength payload ≤ (heard payload).length := fun hle => by
        rw [hoff, stringAt_received h.heard_ne_zero h.heard_length_lt hle] at hstr
        have hlen := congrArg List.length hstr
        rw [List.length_drop, List.length_drop] at hlen
        omega
      have hid : payload[2]? = some colon := by
        by_contra hc
        exact hlong (by rw [idLength, if_neg hc]; exact Nat.zero_le _)
      have h3 : idLength payload = 3 := if_pos hid
      have hcolon : received s.kdbgIn (heard payload) 2 = colon := by
        by_contra hc
        rw [returned, if_neg hc, h3] at hoff
        omega
      have hmem : colon ∈ heard payload := List.mem_filter.mpr ⟨List.mem_of_getElem? hid, by decide⟩
      have hone : heard payload = [colon] := by
        have h2 : (heard payload).length ≠ 2 := fun h2 => by
          rw [← h2, received_length] at hcolon
          exact absurd hcolon (by decide)
        obtain ⟨d, hd⟩ := List.length_eq_one_iff.mp (show (heard payload).length = 1 by
          have := List.length_pos_of_mem hmem
          omega)
        rw [hd] at hmem ⊢
        rw [List.mem_singleton.mp hmem]
      rw [hone, List.length_singleton] at hlong
      rw [hone] at hstr hcolon hk hoff
      rw [hoff, h3] at hstr
      refine ⟨hid, hone, hk.symm, ?_, ?_⟩
      · rwa [received_of_gt (by simp)] at hcolon
      · rw [← hstr]
        exact stringAt_congr fun i hi => (received_of_gt (by simp; omega)).symm
  · rintro (⟨hall, hc⟩ | ⟨hid, hone, hk, hcolon, hstr⟩)
    · have hheard := heard_eq_iff.mpr hall
      rw [hheard, if_pos rfl] at heq
      refine ⟨_, _, heq, returned_eq hc, ?_⟩
      rw [returned_eq hc]
      exact stringAt_received (fun c hc => (h.ne c hc).1) (hheard ▸ h.heard_length_lt)
        (idLength_le payload)
    · have h3 : idLength payload = 3 := if_pos hid
      have hret : returned (received s.kdbgIn [colon]) = 3 := by
        rw [returned, received_of_gt (by simp), if_pos hcolon]
      rw [hone, hk, if_pos (show checksum 0 [colon] = colon by decide)] at heq
      refine ⟨_, _, heq, by rw [hret, h3], ?_⟩
      rw [hret, h3, ← hstr]
      exact stringAt_congr fun i hi => received_of_gt (by simp; omega)

/-- **Packets**: for every payload, every sequence of answers that ask for it again and every
state of the line and the buffer, all packets sent have the payload exactly if it is empty or the
first is taken; and a packet is received exactly if all of its bytes are heard and no colon of an
earlier packet is taken for one of it, or by accident. -/
theorem packet_transport (payload naks : List UInt8) (s : Serial) (h : Payload payload)
    (hn : ∀ c ∈ naks, Nak c) :
    (SendsFrames payload naks s ↔ payload = [] ∨ naks = []) ∧
      (Receives payload s ↔ Clear payload s.kdbgIn ∨ Accident payload s.kdbgIn) :=
  ⟨sendsFrames_iff h hn s, receives_iff h s⟩

end

/-- The buffer before the first packet. -/
def initial : Serial := ⟨[], [], fun _ => 0⟩

/-- The payload `OK`, sent once and taken. -/
theorem packet_transport_ok : SendsFrames [79, 75] [] initial ∧ Receives [79, 75] initial := by
  have h : Payload [79, 75] := ⟨by simp [dollar, hash], by decide⟩
  obtain ⟨hs, hr⟩ := packet_transport [79, 75] [] initial h (fun c hc => by cases hc)
  exact ⟨hs.mpr (Or.inr rfl), hr.mpr (Or.inl ⟨by simp, Or.inl (by decide)⟩)⟩

/-- The payload `OK` that is asked for again is sent without its payload; and after the packet
`ab:` the string returned for the packet `g` is the empty one behind the colon. -/
theorem retransmission_empty_and_stale_colon :
    (∃ s', putPacket [79, 75] { initial with input := [minus, plus] } = .ok () s' ∧
        s'.output = frame [79, 75] ++ frame []) ∧
      (∃ s' s'', getPacket { initial with input := frame [97, 98, colon] } = .ok 3 s' ∧
        getPacket { s' with input := frame [103] } = .ok 3 s'') :=
  ⟨⟨_, rfl, by decide⟩, _, _, rfl, rfl⟩

end Cosiris.Kdbg
