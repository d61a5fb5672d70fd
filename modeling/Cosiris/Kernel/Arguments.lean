import Cosiris.Cofs.Inode
import Cosiris.Lib.Prog

/-!
# The arguments of a program

What `sys_exec` does with the arguments: it saves copies of them in `tmp_argv`, before the memory
of the task is given up, and pushes them to the new stack, first the strings, from then on in
`tmp_argv` by their addresses, then these, and then what `main` is called with. A program with up
to 15 arguments finds them there (`exec_arguments_iff`); with more of them the end mark is written
behind `tmp_argv`. -/

namespace Cosiris.Exec

open Prog Cofs

/-- `MAX_ARGUMENTS`. -/
def maxArguments : ℕ := 16

/-- `USER_STACK_HI`. -/
def userStackHi : ℕ := 0x0FFFF000

/-- The pages of the stack that are mapped, `USER_STACK_MIN_PGS` of them, end here. -/
def userStackMapped : ℕ := userStackHi - 4 * 4096

/-- What an entry of `tmp_argv` has: nothing that was put there, the copy of a string, or an
address. -/
inductive Tmp where
  | junk
  | str (s : CStr)
  | addr (a : ℕ)

/-- The local variables `tmp_argv` and `u_esp`, and the memory of the task. -/
structure Stack where
  tmpArgv : ℕ → Tmp
  mem : ℕ → UInt8
  esp : ℕ

/-- How the arguments go wrong: an access behind the end of `tmp_argv`, or to a page that is not
mapped. -/
inductive Wrong where
  | index
  | fault
  deriving DecidableEq

abbrev ArgM := Prog Wrong Stack

/-- `tmp_argv[i] = v`. -/
def setTmp (i : ℕ) (v : Tmp) : ArgM Unit :=
  if i < maxArguments then modify fun s =>
    { s with tmpArgv := Function.update s.tmpArgv i v } else halt .index

/-- `tmp_argv[i]`. -/
def getTmp (i : ℕ) : ArgM Tmp := do
  let s ← read
  if i < maxArguments then return s.tmpArgv i else halt .index

/-- Bytes pushed to the stack. -/
def push (bs : List UInt8) : ArgM Unit := do
  let s ← read
  if userStackMapped + bs.length ≤ s.esp then
    modify fun s =>
      { s with mem := putBytes s.mem (s.esp - bs.length) bs, esp := s.esp - bs.length }
  else halt .fault

/-- The loop that saves the arguments: how many there are. -/
def saveArgs : ℕ → List CStr → ArgM ℕ
  | argc, [] => return argc
  | argc, s :: argv =>
    if argc < maxArguments then do
      setTmp argc (.str s)
      saveArgs (argc + 1) argv
    else return argc

/-- The arguments saved, and the end mark. -/
def saveArgv (argv : Option (List CStr)) : ArgM ℕ := do
  let argc ← match argv with
    | some argv => saveArgs 0 argv
    | none => pure 0
  setTmp argc (.addr 0)
  return argc

/-- The room that a string gets on the stack. -/
def argLen (s : CStr) : ℕ := 4 + (s.bytes.length + 1) / 4 * 4

/-- The `len` bytes that are copied for a string: behind its end there is what the heap has there.
-/
def argBytes (stale : ℕ → UInt8) (s : CStr) : List UInt8 :=
  s.bytes ++ 0 :: (List.range (argLen s - (s.bytes.length + 1))).map stale

/-- A round of the loop that pushes the strings. -/
def pushString (stale : ℕ → ℕ → UInt8) (i : ℕ) : ArgM Unit := do
  let v ← getTmp i
  match v with
  | .str s => do
    push (argBytes (stale i) s)
    let s ← read
    setTmp i (.addr s.esp)
  | _ => halt .fault

/-- A round of the loop that pushes the addresses. -/
def pushAddr (i : ℕ) : ArgM Unit := do
  let v ← getTmp i
  match v with
  | .addr a => push (leBytes 4 a)
  | _ => halt .fault

/-- What `sys_exec` does with the arguments. -/
def execArgs (stale : ℕ → ℕ → UInt8) (argv : Option (List CStr)) : ArgM Unit := do
  let argc ← saveArgv argv
  modify fun s => { s with esp := userStackHi }
  upTo (pushString stale) argc
  upTo (fun k => pushAddr (argc - k)) (argc + 1)
  let s ← read
  push (leBytes 4 0xC0DEBABE)
  push (leBytes 4 s.esp)
  push (leBytes 4 argc)

/-! ### What the program finds -/

/-- `argc`, as `main` finds it. -/
def Stack.argc (s : Stack) : ℕ := getLe s.mem s.esp 4

/-- `argv`, as `main` finds it. -/
def Stack.argv (s : Stack) : ℕ := getLe s.mem (s.esp + 4) 4

/-- `argv[i]`, as `main` finds it. -/
def Stack.arg (s : Stack) (i : ℕ) : ℕ := getLe s.mem (s.argv + 4 * i) 4

/-- The stack has the arguments: their number, an array of addresses with an end mark, and a copy
of each string, none of them over another. -/
structure Decodes (args : List CStr) (s : Stack) : Prop where
  aligned : s.esp % 4 = 0
  argc : s.argc = args.length
  strings : ∀ i a, args[i]? = some a →
      getBytes s.mem (s.arg i) (a.bytes.length + 1) = a.bytes ++ [0]
  null : s.arg args.length = 0
  mapped : userStackMapped ≤ s.esp
  below : s.esp + 12 ≤ s.argv
  above : ∀ i, i < args.length → s.argv + 4 * (args.length + 1) ≤ s.arg i
  apart : ∀ i j a, i < j → args[j]? = some a → s.arg j + (a.bytes.length + 1) ≤ s.arg i
  inside : ∀ i a, args[i]? = some a → s.arg i + (a.bytes.length + 1) ≤ userStackHi

/-- The room for the first `k` strings. -/
def argSpace (args : List CStr) (k : ℕ) : ℕ := ((args.take k).map argLen).sum

/-- The arguments fit the pages of the stack that are mapped: the strings, the addresses, and
three words. -/
def ArgsFit (args : List CStr) : Prop :=
  argSpace args args.length + 4 * (args.length + 1) + 12 ≤ 4 * 4096

instance : DecidablePred ArgsFit := fun _ => inferInstanceAs (Decidable (_ ≤ _))

section

variable {s s' : Stack} {stale : ℕ → ℕ → UInt8} {args argv : List CStr} {a : CStr} {bs : List UInt8}
    {i j k n : ℕ}
  {E : Wrong → Stack → Prop}

theorem argLen_gt (a : CStr) : a.bytes.length + 1 ≤ argLen a := by
  unfold argLen
  omega

theorem argLen_mod (a : CStr) : argLen a % 4 = 0 := by
  unfold argLen
  omega

theorem length_argBytes (f : ℕ → UInt8) (a : CStr) : (argBytes f a).length = argLen a := by
  have := argLen_gt a
  simp only [argBytes, List.length_append, List.length_cons, List.length_map, List.length_range]
  omega

/-- The copy of a string starts with the string. -/
theorem getBytes_argBytes {m : ℕ → UInt8} {f : ℕ → UInt8} {q : ℕ} :
    getBytes (putBytes m q (argBytes f a)) q (a.bytes.length + 1) = a.bytes ++ [0] := by
  have h := getBytes_putBytes_part m q [] (a.bytes ++ [0])
    ((List.range (argLen a - (a.bytes.length + 1))).map f)
  simpa [argBytes] using h

theorem argSpace_succ (h : args[k]? = some a) :
    argSpace args (k + 1) = argSpace args k + argLen a := by
  simp [argSpace, List.take_add_one, h]

theorem argSpace_mono (args : List CStr) (h : i ≤ j) : argSpace args i ≤ argSpace args j := by
  obtain ⟨t, ht⟩ : args.take i <+: args.take j := List.take_prefix_take_left h
  simp only [argSpace, ← ht, List.map_append, List.sum_append]
  omega

theorem argSpace_mod (args : List CStr) (k : ℕ) : argSpace args k % 4 = 0 := by
  unfold argSpace
  induction args.take k with
  | nil => rfl
  | cons a l ih =>
    have := argLen_mod a
    rw [List.map_cons, List.sum_cons]
    omega

/-! ### Saving -/

/-- The arguments are saved as long as there is room for them. -/
theorem saveArgs_spec {argc : ℕ} (hargc : argc ≤ maxArguments) :
    wp (saveArgs argc argv) (fun r s' => r = min maxArguments (argc + argv.length) ∧
      s'.mem = s.mem ∧
      (∀ i, i < argc → s'.tmpArgv i = s.tmpArgv i) ∧
      ∀ i a, argv[i]? = some a → argc + i < maxArguments → s'.tmpArgv (argc + i) = .str a) E s := by
  induction argv generalizing argc s with
  | nil =>
    refine ⟨?_, rfl, fun _ _ => rfl, fun i a hi => by simp at hi⟩
    rw [List.length_nil]
    omega
  | cons b argv ih =>
    rw [saveArgs]
    by_cases h : argc < maxArguments
    case neg =>
      rw [if_neg h]
      refine ⟨by rw [List.length_cons]; omega, rfl, fun _ _ => rfl, fun i a _ hi => by omega⟩
    rw [if_pos h, wp_bind, setTmp, if_pos h, wp_modify]
    refine (ih (by omega)).mono ?_ fun _ _ => id
    rintro r s' ⟨hr, hmem, hbefore, hstr⟩
    refine ⟨by rw [hr, List.length_cons]; omega, hmem, fun i hi => ?_, fun i a hi hlt => ?_⟩
    · rw [hbefore i (by omega)]
      exact Function.update_of_ne (by omega) _ _
    · cases i with
      | zero =>
        obtain rfl : b = a := by simpa using hi
        rw [Nat.add_zero, hbefore argc (by omega)]
        exact Function.update_self _ _ _
      | succ i =>
        have := hstr i a (by simpa using hi) (by omega)
        rwa [show argc + (i + 1) = argc + 1 + i by omega]

/-- With too many arguments the end mark is written behind `tmp_argv`. -/
theorem saveArgv_halts (h : maxArguments ≤ argv.length) :
    wp (saveArgv (some argv)) (fun _ _ => False) (fun e _ => e = .index) s := by
  rw [saveArgv, wp_bind]
  refine (saveArgs_spec (Nat.zero_le _)).mono ?_ fun _ _ h => h
  rintro r s' ⟨rfl, -⟩
  rw [wp_bind, setTmp, if_neg (by omega), wp_halt]

theorem execArgs_halts (stale : ℕ → ℕ → UInt8) (h : maxArguments ≤ argv.length) :
    ∃ e s', execArgs stale (some argv) s = .halt e s' ∧ e = .index := by
  have hhalt := saveArgv_halts (s := s) h
  unfold wp at hhalt
  cases hm : saveArgv (some argv) s with
  | ok r s' => rw [hm] at hhalt; exact hhalt.elim
  | halt e s' => rw [hm] at hhalt; exact ⟨e, s', bind_of_halt hm, hhalt⟩

/-- `tmp_argv` after the arguments were saved. -/
theorem saveArgv_spec (h : argv.length < maxArguments) :
    wp (saveArgv (some argv)) (fun r s' => r = argv.length ∧ s'.tmpArgv argv.length = .addr 0 ∧
      ∀ i a, argv[i]? = some a → s'.tmpArgv i = .str a) E s := by
  rw [saveArgv, wp_bind]
  refine (saveArgs_spec (Nat.zero_le _)).mono ?_ fun _ _ => id
  rintro r s' ⟨rfl, -, -, hstr⟩
  have hmin : min maxArguments (0 + argv.length) = argv.length := by omega
  rw [hmin, wp_bind, setTmp, if_pos h, wp_modify]
  refine ⟨rfl, Function.update_self _ _ _, fun i a hi => ?_⟩
  have hlt : i < argv.length := (List.getElem?_eq_some_iff.mp hi).1
  have := hstr i a hi (by omega)
  rw [Nat.zero_add] at this
  rw [← this]
  exact Function.update_of_ne (by omega) _ _

/-! ### Pushing -/

theorem wp_push {Q : Unit → Stack → Prop} (h : userStackMapped + bs.length ≤ s.esp) :
    wp (push bs) Q E s =
      Q () { s with mem := putBytes s.mem (s.esp - bs.length) bs, esp := s.esp - bs.length } := by
  rw [push, wp_bind, wp_read, wp_ite, if_pos h, wp_modify]

theorem wp_pushWord {Q : Unit → Stack → Prop} {v : ℕ} (h : userStackMapped + 4 ≤ s.esp) :
    wp (push (leBytes 4 v)) Q E s =
      Q () { s with mem := putLe s.mem (s.esp - 4) 4 v, esp := s.esp - 4 } := by
  have hlen : (leBytes 4 v).length = 4 := length_leBytes 4 v
  rw [wp_push (by rwa [hlen]), hlen]
  rfl

theorem getBytes_putLe_disjoint {m : ℕ → UInt8} {q b v : ℕ} (h : q + n ≤ b ∨ b + 4 ≤ q) :
    getBytes (putLe m b 4 v) q n = getBytes m q n :=
  getBytes_putBytes_disjoint (by rwa [length_leBytes])

/-- What was pushed before stays. -/
theorem getBytes_push {m : ℕ → UInt8} {esp q n : ℕ} (hlen : bs.length ≤ esp) (hq : esp ≤ q) :
    getBytes (putBytes m (esp - bs.length) bs) q n = getBytes m q n :=
  getBytes_putBytes_disjoint (.inr (by omega))

/-- The first `k` strings are on the stack, and their addresses are in `tmp_argv`. -/
structure Strings (args : List CStr) (k : ℕ) (s : Stack) : Prop where
  esp : s.esp = userStackHi - argSpace args k
  pushed : ∀ i, i < k → s.tmpArgv i = .addr (userStackHi - argSpace args (i + 1))
  saved : ∀ i a, k ≤ i → args[i]? = some a → s.tmpArgv i = .str a
  null : s.tmpArgv args.length = .addr 0
  bytes : ∀ i a, i < k → args[i]? = some a →
    getBytes s.mem (userStackHi - argSpace args (i + 1)) (a.bytes.length + 1) = a.bytes ++ [0]

theorem Strings.step (h : Strings args k s) (hk : k < args.length) (hn : args.length < maxArguments)
    (hfit : argSpace args args.length ≤ 4 * 4096) :
    wp (pushString stale k) (fun _ s' => Strings args (k + 1) s') E s := by
  have ha : args[k]? = some args[k] := List.getElem?_eq_getElem hk
  generalize args[k] = a at ha
  have hspace := argSpace_succ ha
  have hmono := argSpace_mono args (show k + 1 ≤ args.length from hk)
  have hlen := length_argBytes (stale k) a
  have hesp := h.esp
  have hhi : userStackMapped = userStackHi - 4 * 4096 := rfl
  have hhi' : userStackHi = 0x0FFFF000 := rfl
  have hnew : s.esp - argLen a = userStackHi - argSpace args (k + 1) := by omega
  rw [pushString, wp_bind, getTmp, wp_bind, wp_read, wp_ite, if_pos (by omega), wp_pure,
    h.saved k a le_rfl ha]
  dsimp only
  rw [wp_bind, wp_push (by omega), wp_bind, wp_read, setTmp, if_pos (by omega), wp_modify, hlen]
  refine ⟨hnew, fun i hi => ?_, fun i b hi hb => ?_, ?_, fun i b hi hb => ?_⟩
  · rcases Nat.lt_succ_iff_lt_or_eq.mp hi with hi | rfl
    · exact (Function.update_of_ne (by omega) _ _).trans (h.pushed i hi)
    · exact (Function.update_self _ _ _).trans (congrArg Tmp.addr hnew)
  · exact (Function.update_of_ne (by omega) _ _).trans (h.saved i b (by omega) hb)
  · exact (Function.update_of_ne (by omega) _ _).trans h.null
  · rcases Nat.lt_succ_iff_lt_or_eq.mp hi with hi | rfl
    · have hle := argSpace_mono args (show i + 1 ≤ k from hi)
      rw [← h.bytes i b hi hb, ← hlen]
      exact getBytes_push (by omega) (by omega)
    · obtain rfl : a = b := by simpa [ha] using hb
      dsimp only
      rw [← hnew]
      exact getBytes_argBytes

/-- The address that goes to entry `i` of the new `argv`. -/
def argAddr (args : List CStr) (i : ℕ) : ℕ :=
  if i < args.length then userStackHi - argSpace args (i + 1) else 0

/-- The strings are on the stack, and the last `k` addresses below them. -/
structure Addrs (args : List CStr) (k : ℕ) (s : Stack) : Prop where
  esp : s.esp = userStackHi - argSpace args args.length - 4 * k
  tmp : ∀ i, i ≤ args.length → s.tmpArgv i = .addr (argAddr args i)
  words : ∀ i, i < k → getLe s.mem (userStackHi - argSpace args args.length - 4 * (i + 1)) 4 =
      argAddr args (args.length - i)
  bytes : ∀ i a, args[i]? = some a →
      getBytes s.mem (argAddr args i) (a.bytes.length + 1) = a.bytes ++ [0]

theorem Strings.addrs (h : Strings args args.length s) : Addrs args 0 s where
  esp := by rw [h.esp, Nat.mul_zero, Nat.sub_zero]
  tmp i hi := by
    rcases Nat.lt_or_eq_of_le hi with hi | rfl
    · rw [h.pushed i hi, argAddr, if_pos hi]
    · rw [h.null, argAddr, if_neg (Nat.lt_irrefl _)]
  words i hi := by omega
  bytes i a ha := by
    have hi : i < args.length := (List.getElem?_eq_some_iff.mp ha).1
    rw [argAddr, if_pos hi]
    exact h.bytes i a hi ha

theorem argAddr_lt (i : ℕ) : argAddr args i < 256 ^ 4 := by
  have hhi : userStackHi = 0x0FFFF000 := rfl
  unfold argAddr
  split <;> omega

/-- The strings are above all that is pushed after them. -/
theorem argAddr_ge (hi : i < args.length) :
    userStackHi - argSpace args args.length ≤ argAddr args i := by
  have := argSpace_mono args (show i + 1 ≤ args.length from hi)
  rw [argAddr, if_pos hi]
  omega

theorem Addrs.step (h : Addrs args k s) (hk : k < args.length + 1) (hn : args.length < maxArguments)
    (hfit : ArgsFit args) :
    wp (pushAddr (args.length - k)) (fun _ s' => Addrs args (k + 1) s') E s := by
  have hesp := h.esp
  have hhi : userStackMapped = userStackHi - 4 * 4096 := rfl
  have hhi' : userStackHi = 0x0FFFF000 := rfl
  unfold ArgsFit at hfit
  have hnew : s.esp - 4 = userStackHi - argSpace args args.length - 4 * (k + 1) := by omega
  rw [pushAddr, wp_bind, getTmp, wp_bind, wp_read, wp_ite, if_pos (by omega), wp_pure,
    h.tmp _ (by omega)]
  dsimp only
  rw [wp_pushWord (by omega)]
  refine ⟨hnew, h.tmp, fun i hi => ?_, fun i a ha => ?_⟩
  · rcases Nat.lt_succ_iff_lt_or_eq.mp hi with hi | rfl
    · rw [← h.words i hi]
      exact getLe_putLe_disjoint (.inr (by omega))
    · dsimp only
      rw [← hnew, getLe_putLe, Nat.mod_eq_of_lt (argAddr_lt _)]
  · have hi : i < args.length := (List.getElem?_eq_some_iff.mp ha).1
    have hge := argAddr_ge hi
    rw [← h.bytes i a ha]
    exact getBytes_putLe_disjoint (.inr (by omega))

/-- **The arguments arrive**: with fewer than `MAX_ARGUMENTS` of them the stack is what `main`
expects. -/
theorem execArgs_spec (hn : args.length < maxArguments) (hfit : ArgsFit args) :
    wp (execArgs stale (some args)) (fun _ s' => Decodes args s') E s := by
  have hhi : userStackMapped = userStackHi - 4 * 4096 := rfl
  have hhi' : userStackHi = 0x0FFFF000 := rfl
  have hmod := argSpace_mod args args.length
  have hroom := hfit
  unfold ArgsFit at hroom
  rw [execArgs, wp_bind]
  refine (saveArgv_spec hn).mono ?_ fun _ _ => id
  rintro argc s₁ ⟨rfl, hnull, hsaved⟩
  rw [wp_bind, wp_modify, wp_bind]
  have hstart : Strings args 0 { s₁ with esp := userStackHi } :=
    ⟨by simp [argSpace], fun i hi => by omega, fun i a _ ha => hsaved i a ha, hnull,
      fun i a hi => by omega⟩
  refine (wp_upTo (I := fun k s' => Strings args k s') hstart fun k s' hk h =>
    h.step hk hn (by omega)).mono ?_ fun _ _ => id
  rintro - s₂ h₂
  rw [wp_bind]
  refine (wp_upTo (I := fun k s' => Addrs args k s') h₂.addrs fun k s' hk h =>
    h.step hk hn hfit).mono
    ?_ fun _ _ => id
  rintro - s₃ h₃
  have hesp := h₃.esp
  rw [wp_bind, wp_read, wp_bind, wp_pushWord (by omega), wp_bind,
    wp_pushWord (by dsimp only; omega),
    wp_pushWord (by dsimp only; omega)]
  dsimp only
  generalize he : s₃.esp = e at hesp
  have h1 : e - 4 - 4 - 4 = e - 12 := by omega
  have h2 : e - 4 - 4 = e - 8 := by omega
  rw [h1, h2]
  generalize hm : putLe (putLe (putLe s₃.mem (e - 4) 4 0xC0DEBABE) (e - 8) 4 e)
    (e - 12) 4 args.length = m
  have habove : ∀ q, e ≤ q → ∀ n, getBytes m q n = getBytes s₃.mem q n := fun q hq n => by
    rw [← hm, getBytes_putLe_disjoint (.inr (by omega)), getBytes_putLe_disjoint (.inr (by omega)),
      getBytes_putLe_disjoint (.inr (by omega))]
  have hargv : getLe m (e - 12 + 4) 4 = e := by
    rw [← hm, getLe_putLe_disjoint (.inr (by omega)), show e - 12 + 4 =
      e - 8 by omega, getLe_putLe, Nat.mod_eq_of_lt (by omega)]
  let s₄ : Stack := ⟨s₃.tmpArgv, m, e - 12⟩
  have hargv' : s₄.argv = e := hargv
  have harg : ∀ i, i ≤ args.length → s₄.arg i = argAddr args i := fun i hi => by
    rw [Stack.arg, hargv', getLe, habove _ (by omega)]
    have hw := h₃.words (args.length - i) (by omega)
    rw [show args.length - (args.length - i) = i by omega,
      show userStackHi - argSpace args args.length - 4 * (args.length - i + 1) =
        e + 4 * i by omega] at hw
    exact hw
  have hlt : ∀ {i a}, args[i]? = some a → i < args.length := fun ha =>
    (List.getElem?_eq_some_iff.mp ha).1
  show Decodes args s₄
  refine ⟨?_, ?_, fun i a ha => ?_, ?_, ?_, ?_, fun i hi => ?_,
    fun i j a hij ha => ?_, fun i a ha => ?_⟩
  · show (e - 12) % 4 = 0
    omega
  · show getLe m (e - 12) 4 = args.length
    rw [← hm, getLe_putLe, Nat.mod_eq_of_lt]
    have : maxArguments = 16 := rfl
    omega
  · have hge := argAddr_ge (hlt ha)
    rw [harg i (hlt ha).le]
    exact (habove _ (by omega) _).trans (h₃.bytes i a ha)
  · rw [harg _ le_rfl, argAddr, if_neg (Nat.lt_irrefl _)]
  · show userStackMapped ≤ e - 12
    omega
  · rw [hargv']
    show e - 12 + 12 ≤ e
    omega
  · have hge := argAddr_ge hi
    rw [hargv', harg i hi.le]
    omega
  · have hj := hlt ha
    have hspace := argSpace_succ ha
    have hgt := argLen_gt a
    have hmono := argSpace_mono args (show i + 1 ≤ j from hij)
    have hle := argSpace_mono args (show j + 1 ≤ args.length from hj)
    rw [harg i (by omega), harg j (by omega), argAddr, argAddr, if_pos hj, if_pos (by omega)]
    omega
  · have hi := hlt ha
    have hspace := argSpace_succ ha
    have hgt := argLen_gt a
    have hle := argSpace_mono args (show i + 1 ≤ args.length from hi)
    rw [harg i hi.le, argAddr, if_pos hi]
    omega

/-- **The arguments of a program** arrive exactly when there are fewer than `MAX_ARGUMENTS` of
them. With more of them, of which the first 16 are taken, the end mark is written behind
`tmp_argv`. -/
theorem exec_arguments_iff (stale : ℕ → ℕ → UInt8) (argv : List CStr) (s : Stack)
    (hfit : ArgsFit (argv.take maxArguments)) :
    wp (execArgs stale (some argv)) (fun _ s' => Decodes (argv.take maxArguments) s')
      (fun _ _ => False) s ↔
      argv.length < maxArguments := by
  constructor
  · intro h
    by_contra hn
    obtain ⟨e, s', hhalt, -⟩ := execArgs_halts stale (s := s) (Nat.le_of_not_lt hn)
    exact h.halted hhalt
  · intro hn
    rw [List.take_of_length_le hn.le] at hfit ⊢
    exact execArgs_spec hn hfit

end

/-- The arguments of `ls -l`. -/
def twoArgs : List CStr := [⟨[108, 115], by decide⟩, ⟨[45, 108], by decide⟩]

/-- The state before, with nothing on the stack. -/
def freshStack : Stack := ⟨fun _ => .junk, fun _ => 0, userStackHi⟩

theorem exec_arguments_two :
    ArgsFit (twoArgs.take maxArguments) ∧
      ∃ s, execArgs (fun _ _ => 7) (some twoArgs) freshStack = .ok () s ∧ Decodes twoArgs s := by
  have hfit : ArgsFit (twoArgs.take maxArguments) := by decide +kernel
  obtain ⟨_, s, hs, hd⟩ :=
    ((exec_arguments_iff (fun _ _ => 7) twoArgs freshStack hfit).mpr (by decide)).returns
  exact ⟨hfit, s, hs, hd⟩

/-- Sixteen arguments. -/
theorem mark_behind_array :
    ArgsFit ((List.replicate 16 CStr.empty).take maxArguments) ∧
      ∃ s, execArgs (fun _ _ => 7) (some (List.replicate 16 CStr.empty)) freshStack =
        .halt .index s := by
  refine ⟨by decide +kernel, ?_⟩
  obtain ⟨e, s, hs, rfl⟩ :=
    execArgs_halts (s := freshStack) (fun _ _ => 7)
      (show maxArguments ≤ (List.replicate 16 CStr.empty).length by decide)
  exact ⟨s, hs⟩

end Cosiris.Exec
