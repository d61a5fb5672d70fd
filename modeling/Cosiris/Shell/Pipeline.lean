import Cosiris.Kernel.Tables
import Cosiris.Shell.Parse

/-!
# Pipelines

`exec_commands` of `bin/cosh.c` for the commands of a line, and what `clean_cmd` does to the
descriptors afterwards, over the descriptor tables of the kernel. The shell makes a pipe or opens
a file, forks, closes the end that it has given away, and goes on to the next command; meanwhile
every child that it has forked moves its input and its output to the descriptors 0 and 1, runs its
program, and ends. A step is one part of the shell or of a child, and the parts come in any order.
What a program does is left open: only its own descriptors change.

Whatever the order, each program is started with its input and its output where they belong, and
with the writing end of no other pipe (`pipeline_started`). Nobody is ever stuck, each line can be
run to its end (`line_ends`), and there the shell has the descriptors that it began with, but for
the reading end of a pipe whose reader has an input file, which is lost (`pipeline_clean`).

The terminal's group, the working directory, what is printed, and the counters of a pipe's readers
and writers are left out. -/

namespace Cosiris.Shell

open Function Prog Descriptors

/-- `"cd"`. -/
def cdText : Text := [99, 100]

/-- The flags with which the output file is opened. -/
def Cmd.outFlags (c : Cmd) : ℕ := 1 ||| if c.append then 0x400 else 0x40 ||| 0x200

/-- A call of a child before it runs its program. -/
inductive Act where
  | close (fd : ℤ)
  | dup (fd : ℤ)
  deriving DecidableEq

/-- What a child does between `fork` and `execvp`. -/
def Cmd.setup (c : Cmd) (fd0 fdin fdout : ℤ) : List Act :=
  (if c.doPipe then [.close fd0] else []) ++ (if fdout > 0 then [.close 1, .dup fdout] else []) ++
    if fdin > 0 then [.close 0, .dup fdin] else []

/-- A child. -/
structure Child where
  task : ℕ
  /-- What is left to do before the program runs; the program runs if there is nothing. -/
  todo : Option (List Act)

/-- Where the shell is. -/
inductive Phase where
  /-- At the head of the loop over the commands. -/
  | redirect
  /-- At the input file. -/
  | input
  /-- At `fork`. -/
  | fork
  /-- Behind `fork`, in the parent. -/
  | parent
  /-- At the loop over `wait`. -/
  | wait
  /-- In `clean_cmd`, at `fdin` of command `j`. -/
  | closeIn (j : ℕ)
  /-- In `clean_cmd`, at `fdout` of command `j`. -/
  | closeOut (j : ℕ)
  deriving DecidableEq

/-- The variables of the shell, and its children. -/
structure Jobs where
  pos : ℕ
  phase : Phase
  fd0 : ℤ
  fd1 : ℤ
  fdin : ℕ → ℤ
  fdout : ℕ → ℤ
  child : ℕ → Option Child
  /-- The descriptors with which the programs were started. -/
  started : ℕ → Option (ℕ → Option ℕ)

/-- What the file system answers: the nodes of the pipe that is made for a command, and what is
found for its output and its input file. -/
structure World where
  rd : ℕ → ℕ
  wr : ℕ → ℕ
  outs : ℕ → Namei
  ins : ℕ → Namei

/-- How it begins. -/
def Jobs.init : Jobs := ⟨0, .redirect, 0, 0, fun _ => -1, fun _ => -1, fun _ => none, fun _ => none⟩

variable (cs : List Cmd) (w : World) (me : ℕ)

/-- The output of a command is opened: a pipe, or a file. -/
def openOut (x : Jobs) (c : Cmd) : Kern Jobs :=
  if c.doPipe then do
    let p ← sysPipeFds me (w.rd x.pos) (w.wr x.pos)
    return { x with phase := .input, fd0 := p.1, fd1 := p.2, fdout := update x.fdout x.pos p.2 }
  else match c.outfile with
    | none => return { x with phase := .input }
    | some _ => do
      let fd ← sysOpen me (w.outs x.pos) c.outFlags 0x1b6
      return { x with phase := .input, fdout := update x.fdout x.pos fd }

/-- The input of a command is opened, if it is a file. -/
def openIn (x : Jobs) (c : Cmd) : Kern Jobs :=
  match c.infile with
  | none => return { x with phase := .fork }
  | some _ => do
    let fd ← sysOpen me (w.ins x.pos) 0 0x1b6
    return { x with phase := .fork, fdin := update x.fdin x.pos fd }

/-- A child is forked. -/
def forkChild (x : Jobs) (c : Cmd) : Kern Jobs := do
  let pid ← forkInt me
  let child := ⟨pid.toNat, some (c.setup x.fd0 (x.fdin x.pos) (x.fdout x.pos))⟩
  return { x with phase := .parent, child := update x.child x.pos (some child) }

/-- The ends of the pipe are given away. -/
def passPipe (x : Jobs) (c : Cmd) : Kern Jobs :=
  if c.doPipe then
    -- `cmd->next` of the last command is `NULL`
    if x.pos + 1 < cs.length then do
      let _ ← sysClose me x.fd1
      return { x with phase := .redirect, pos := x.pos + 1,
                      fdin := update x.fdin (x.pos + 1) x.fd0 }
    else halt .fault
  else return { x with phase := .redirect, pos := x.pos + 1 }

/-- A descriptor is closed by `clean_cmd`. -/
def cleanFd (fd : ℤ) : Kern Unit := if fd > -1 then discard (sysClose me fd) else return ()

/-- The part of the command that the shell is at. -/
def onCmd (x : Jobs) (part : Jobs → Cmd → Kern Jobs) : Kern Jobs :=
  match cs[x.pos]? with
  | none => halt .fault
  | some c => part x c

/-- The next part of the shell. -/
def shell (x : Jobs) : Kern Jobs :=
  match x.phase with
  | .redirect =>
    match cs[x.pos]? with
    | none => return { x with phase := .wait }
    | some c =>
      match c.argv 0 with
      | none => halt .fault
      | some name => if name = cdText then return { x with pos := x.pos + 1 } else openOut w me x c
  | .input => onCmd cs x (openIn w me)
  | .fork => onCmd cs x (forkChild me)
  | .parent => onCmd cs x (passPipe cs me)
  | .wait => return { x with phase := .closeIn 0 }
  | .closeIn j => do
    cleanFd me (x.fdin j)
    return { x with phase := .closeOut j }
  | .closeOut j => do
    cleanFd me (x.fdout j)
    return { x with phase := .closeIn (j + 1) }

/-- A call of task `k`. -/
def Act.run (k : ℕ) : Act → Kern ℤ
  | close fd => sysClose k fd
  | dup fd => sysDup k fd

/-- The shell has returned from `clean_cmd`. -/
def Jobs.Done (x : Jobs) : Prop := x.phase = .closeIn cs.length

/-- All children have ended. -/
def Jobs.Over (x : Jobs) (s : Descriptors.State) : Prop :=
  ∀ i c, x.child i = some c → s.files c.task = none

/-- A part of the shell or of a child is run. -/
inductive Step : Jobs × Descriptors.State → Jobs × Descriptors.State → Prop where
  | shell {x x' s s'} (hdone : ¬ x.Done cs) (hwait : x.phase = .wait → x.Over s)
      (h : shell cs w me x s = .ok x' s') : Step (x, s) (x', s')
  | act {x s s' i k a todo r} (hc : x.child i = some ⟨k, some (a :: todo)⟩)
      (h : Act.run k a s = .ok r s') :
      Step (x, s) ({ x with child := update x.child i (some ⟨k, some todo⟩) }, s')
  | exec {x s i k} (hc : x.child i = some ⟨k, some []⟩) :
      Step (x, s) ({ x with
        child := update x.child i (some ⟨k, none⟩)
        started := update x.started i (some (s.nodeAt k)) }, s)
  | program {x s s' i k} (hc : x.child i = some ⟨k, none⟩) (h : Local k s s') : Step (x, s) (x, s')

/-! ### What it is for -/

/-- What is opened. -/
def opened (found : Namei) : Option ℕ :=
  if found.ret < 0 ∨ found.node = 0 then none else some found.node

/-- The command before writes into a pipe. -/
def pipedInto : ℕ → Bool
  | 0 => false
  | i + 1 => cs[i]?.any fun c => c.doPipe && decide (c.argv 0 ≠ some cdText)

/-- The node of the pipe that a command reads from. -/
def pipeIn (i : ℕ) : Option ℕ := if pipedInto cs i then some (w.rd (i - 1)) else none

/-- Where the input of a command comes from, if not from the input of the shell: its input file is
tried first. -/
def source (i : ℕ) : Option ℕ :=
  if (cs[i]?.bind Cmd.infile).isSome then opened (w.ins i) else pipeIn cs w i

/-- Where the output of a command goes to, if not to the output of the shell: a pipe is tried
first. -/
def sink (i : ℕ) : Option ℕ :=
  if cs[i]?.any Cmd.doPipe then some (w.wr i)
  else if (cs[i]?.bind Cmd.outfile).isSome then opened (w.outs i) else none

/-- The descriptors with which the program of command `i` is started, by a shell with the
descriptors `t₀`. -/
structure Started (t₀ : ℕ → Option ℕ) (i : ℕ) (m : ℕ → Option ℕ) : Prop where
  input : m 0 = (source cs w i).or (t₀ 0)
  output : m 1 = (sink cs w i).or (t₀ 1)
  rest : ∀ fd, fd ≠ 0 → fd ≠ 1 → t₀ fd ≠ none → m fd = t₀ fd
  writers : ∀ fd j, m fd = some (w.wr j) → j = i

/-- Pipes are made of new nodes. -/
structure World.Fresh (t₀ : ℕ → Option ℕ) : Prop where
  rd_ne_zero : ∀ i, w.rd i ≠ 0
  wr_ne_zero : ∀ i, w.wr i ≠ 0
  rd_inj : Injective w.rd
  wr_inj : Injective w.wr
  rd_ne_wr : ∀ i j, w.rd i ≠ w.wr j
  old : ∀ fd i, t₀ fd ≠ some (w.rd i) ∧ t₀ fd ≠ some (w.wr i)
  outs : ∀ i j, (w.outs i).node ≠ w.rd j ∧ (w.outs i).node ≠ w.wr j
  ins : ∀ i j, (w.ins i).node ≠ w.rd j ∧ (w.ins i).node ≠ w.wr j

/-- The reading end of a pipe, and the command that should read from it has an input file. -/
def Lost (n : ℕ) : Prop :=
  ∃ i, pipedInto cs i = true ∧ (cs[i]?.bind Cmd.infile).isSome ∧ n = w.rd (i - 1)

/-- The commands, and a shell that is ready to run them. -/
structure Ready (t₀ : ℕ → Option ℕ) (n₀ : ℕ) : Prop where
  /-- There are no commands without words. -/
  named : ∀ c ∈ cs, c.argv 0 ≠ none
  /-- The last command does not write into a pipe. -/
  last : ∀ c, cs.getLast? = some c → c.doPipe = false
  stdin : t₀ 0 ≠ none
  stdout : t₀ 1 ≠ none
  fresh : w.Fresh t₀
  /-- There is room for two descriptors for every command. -/
  room : n₀ + 2 * cs.length ≤ maxOpenFiles

/-! ### The children -/

/-- The calls lead from the descriptors `m` to the descriptors `m'`. -/
def Sets : List Act → (ℕ → Option ℕ) → (ℕ → Option ℕ) → Prop
  | [], m, m' => m = m'
  | .close fd :: todo, m, m' => ∃ i : ℕ, fd = i ∧ m i ≠ none ∧ Sets todo (update m i none) m'
  | .dup fd :: todo, m, m' =>
      ∃ i j a : ℕ, fd = i ∧ m i = some a ∧ FirstFree m j ∧ j < maxOpenFiles ∧
      Sets todo (update m j (some a)) m'

/-- Every child has its own task, will have moved its descriptors to where they belong when its
program is started, and has done so if it was. -/
structure Children (t₀ : ℕ → Option ℕ) (x : Jobs) (s : Descriptors.State) : Prop where
  task : ∀ i c, x.child i = some c → c.task ≠ me ∧ c.task < s.nextTask
  inj : ∀ i j c d, x.child i = some c → x.child j = some d → c.task = d.task → i = j
  todo : ∀ i c todo, x.child i = some c → c.todo = some todo →
    ∃ m, Sets todo (s.nodeAt c.task) m ∧ Started cs w t₀ i m
  started : ∀ i m, x.started i = some m → Started cs w t₀ i m

section

variable {cs w me} {t₀ : ℕ → Option ℕ} {n₀ : ℕ} {x x' : Jobs} {s s' : Descriptors.State}
  {E : Halt → Descriptors.State → Prop}

/-- A call of the shell leaves the children alone. -/
theorem Children.local (h : Children cs w me t₀ x s) (ht : s.Tidy) (hl : Local me s s')
    (hchild : x'.child = x.child) (hstarted : x'.started = x.started) :
    Children cs w me t₀ x' s' where
  task i c hc := by
    rw [hchild] at hc
    exact ⟨(h.task i c hc).1, (h.task i c hc).2.trans_le hl.tasks⟩
  inj := hchild ▸ h.inj
  todo i c todo hc htodo := by
    rw [hchild] at hc
    obtain ⟨hne, hlt⟩ := h.task i c hc
    rw [(hl.other ht hne hlt).1]
    exact h.todo i c todo hc htodo
  started := hstarted ▸ h.started

/-- **A call of a child** is one that it can make. -/
theorem Act.run_spec {k : ℕ} {a : Act} {todo : List Act} {m : ℕ → Option ℕ} (ht : s.Tidy)
    (h : Sets (a :: todo) (s.nodeAt k) m) :
    wp (Act.run k a) (fun _ s' => Local k s s' ∧ Sets todo (s'.nodeAt k) m) E s := by
  cases a with
  | close fd =>
    obtain ⟨i, rfl, hi, hrest⟩ := h
    refine (sysClose_spec ht (lt_sizeAt hi)).mono (fun _ s' hs => ⟨hs.toLocal, ?_⟩) fun _ _ => id
    rwa [hs.map]
  | dup fd =>
    obtain ⟨i, j, a, rfl, hi, hj, hroom, hrest⟩ := h
    refine (sysDup_spec ht hi (openAt_lt ht hj.free hroom)).mono (fun _ s' hs => ?_) fun _ _ => id
    obtain ⟨j', -, hput⟩ := hs
    obtain rfl := hput.first.unique hj
    refine ⟨hput.toLocal, ?_⟩
    rwa [hput.map]

theorem child_cases {child : ℕ → Option Child} {i j : ℕ} {c d : Child}
    (h : update child i (some d) j = some c) : j = i ∧ c = d ∨ j ≠ i ∧ child j = some c := by
  rw [update_apply] at h
  split_ifs at h with hj
  · exact .inl ⟨hj, (Option.some.inj h).symm⟩
  · exact .inr ⟨hj, h⟩

/-- A child goes on. -/
theorem Children.next {i k : ℕ} {todo todo' : Option (List Act)} (h : Children cs w me t₀ x s)
    (ht : s.Tidy) (hc : x.child i = some ⟨k, todo⟩) (hl : Local k s s')
    (hchild : x'.child = update x.child i (some ⟨k, todo'⟩))
    (htodo : ∀ l, todo' = some l → ∃ m, Sets l (s'.nodeAt k) m ∧ Started cs w t₀ i m)
    (hstarted : ∀ j m, x'.started j = some m → Started cs w t₀ j m) :
    Children cs w me t₀ x' s' where
  task j c hj := by
    rw [hchild] at hj
    rcases child_cases hj with ⟨-, rfl⟩ | ⟨-, hj⟩
    · exact ⟨(h.task i _ hc).1, (h.task i _ hc).2.trans_le hl.tasks⟩
    · exact ⟨(h.task j c hj).1, (h.task j c hj).2.trans_le hl.tasks⟩
  inj j j' c d hj hj' e := by
    rw [hchild] at hj hj'
    rcases child_cases hj with ⟨rfl, rfl⟩ | ⟨-, h1⟩ <;>
      rcases child_cases hj' with ⟨rfl, rfl⟩ | ⟨-, h2⟩
    · rfl
    · exact h.inj j j' _ d hc h2 e
    · exact h.inj j j' c _ h1 hc e
    · exact h.inj j j' c d h1 h2 e
  todo j c l hj hl' := by
    rw [hchild] at hj
    rcases child_cases hj with ⟨rfl, rfl⟩ | ⟨hji, hj⟩
    · exact htodo l hl'
    · have hne : c.task ≠ k := fun e => hji (h.inj j i c _ hj hc e)
      rw [(hl.other ht hne (h.task j c hj).2).1]
      exact h.todo j c l hj hl'
  started := hstarted

end

/-! ### The shell -/

/-- The descriptor that the shell has opened for a command, or none. -/
def Points (t₀ : ℕ → Option ℕ) (s : Descriptors.State) (v : ℤ) : Option ℕ → Prop
  | none => v = -1
  | some n => ∃ fd : ℕ, v = fd ∧ t₀ fd = none ∧ s.nodeAt me fd = some n

/-- The shell is between the redirection of a command and its end. -/
def Phase.InFlight (p : Phase) : Prop := p = .input ∨ p = .fork ∨ p = .parent

/-- `clean_cmd` has yet to close `fdin` of command `j`. -/
def Phase.LeftIn (j : ℕ) : Phase → Prop
  | closeIn i => i ≤ j
  | closeOut i => i < j
  | _ => True

/-- `clean_cmd` has yet to close `fdout` of command `j`. -/
def Phase.LeftOut (j : ℕ) : Phase → Prop
  | closeIn i | closeOut i => i ≤ j
  | _ => True

/-- The shell has opened the pipe of a command, and has not given it away. -/
def Jobs.Piping (x : Jobs) : Prop := x.phase.InFlight ∧ (cs[x.pos]?.any Cmd.doPipe) = true

/-- The shell will close the descriptor. -/
def Jobs.Owns (x : Jobs) (fd : ℕ) : Prop :=
  (∃ j, x.fdin j = fd ∧ x.phase.LeftIn j) ∨ (∃ j, x.fdout j = fd ∧ x.phase.LeftOut j) ∨
    x.fd0 = fd ∧ x.Piping cs

/-- The descriptors of a command, of which `src` is where its input comes from. -/
structure Flight (t₀ : ℕ → Option ℕ) (n : ℕ) (src : Option ℕ) (x : Jobs) (s : Descriptors.State)
    (c : Cmd) : Prop where
  cmd : cs[x.pos]? = some c
  name : c.argv 0 ≠ some cdText
  input : Points me t₀ s (x.fdin x.pos) src
  output : Points me t₀ s (x.fdout x.pos) (sink cs w x.pos)
  pipe : c.doPipe = true → Points me t₀ s x.fd0 (some (w.rd x.pos)) ∧ x.fd1 = x.fdout x.pos
  count : s.openAt me ≤ n + (if c.doPipe then 2 else 1)

/-- What holds where the shell is. -/
def At (t₀ : ℕ → Option ℕ) (n₀ : ℕ) (x : Jobs) (s : Descriptors.State) : Prop :=
  match x.phase with
  | .redirect => Points me t₀ s (x.fdin x.pos) (pipeIn cs w x.pos) ∧ x.fdout x.pos = -1 ∧
      s.openAt me ≤ n₀ + 2 * x.pos
  | .input => ∃ c, Flight cs w me t₀ (n₀ + 2 * x.pos) (pipeIn cs w x.pos) x s c
  | .fork | .parent => ∃ c, Flight cs w me t₀ (n₀ + 2 * x.pos + 1) (source cs w x.pos) x s c
  | _ => ∀ j, cs.length ≤ j → x.fdin j = -1 ∧ x.fdout j = -1

/-- A descriptor that `clean_cmd` may close. -/
def Closable (t₀ : ℕ → Option ℕ) (s : Descriptors.State) (v : ℤ) : Prop :=
  v = -1 ∨ ∃ fd : ℕ, v = fd ∧ t₀ fd = none ∧ fd < s.sizeAt me

/-- The shell has the descriptors that it began with. -/
structure Base (t₀ : ℕ → Option ℕ) (s : Descriptors.State) : Prop where
  tidy : s.Tidy
  live : s.files me ≠ none
  base : ∀ fd, t₀ fd ≠ none → s.nodeAt me fd = t₀ fd

/-- The descriptors of the shell: those that it began with, those that it will close, and those
that are lost. -/
structure Held (t₀ : ℕ → Option ℕ) (n₀ : ℕ) (x : Jobs) (s : Descriptors.State) : Prop
    extends Base me t₀ s where
  bound : x.pos ≤ cs.length
  owned : ∀ fd n, t₀ fd = none → s.nodeAt me fd = some n → x.Owns cs fd ∨ Lost cs w n
  closable : ∀ j, Closable me t₀ s (x.fdin j) ∧ Closable me t₀ s (x.fdout j)
  later : ∀ j, x.pos < j → x.fdin j = -1 ∧ x.fdout j = -1
  writers : ∀ fd j, s.nodeAt me fd = some (w.wr j) → x.Piping cs ∧ j = x.pos ∧ x.fd1 = fd
  place : At cs w me t₀ n₀ x s

/-- A part of the shell that forks nobody. -/
structure Moved (t₀ : ℕ → Option ℕ) (n₀ : ℕ) (x : Jobs) (s : Descriptors.State) (x' : Jobs)
    (s' : Descriptors.State) : Prop where
  held : Held cs w me t₀ n₀ x' s'
  rest : Local me s s'
  child : x'.child = x.child
  started : x'.started = x.started

/-- The shell has got the descriptor `v`, if there was anything to open. -/
structure Gained (t₀ : ℕ → Option ℕ) (v : ℤ) (o : Option ℕ) (s s' : Descriptors.State) : Prop where
  base : Base me t₀ s'
  rest : Local me s s'
  points : Points me t₀ s' v o
  cases : ∀ fd m, s'.nodeAt me fd = some m → v = fd ∧ o = some m ∨ s.nodeAt me fd = some m
  keeps : ∀ v' o', Points me t₀ s v' o' → Points me t₀ s' v' o'
  count : s'.openAt me ≤ s.openAt me + 1
  size : s.sizeAt me ≤ s'.sizeAt me

section

variable {cs w me} {t₀ : ℕ → Option ℕ} {n₀ n i : ℕ} {x x' : Jobs} {s s' : Descriptors.State} {v : ℤ}
  {o src : Option ℕ} {c : Cmd} {E : Halt → Descriptors.State → Prop}

theorem Points.put (h : Points me t₀ s v o) (hp : Put me i n s s') : Points me t₀ s' v o := by
  cases o with
  | none => exact h
  | some m =>
    obtain ⟨fd, hv, hfd, hm⟩ := h
    exact ⟨fd, hv, hfd, (hp.keeps (by simp [hm])).trans hm⟩

theorem Points.of_eq (h : Points me t₀ s v o) (hmap : s'.nodeAt me = s.nodeAt me) :
    Points me t₀ s' v o := by
  cases o with
  | none => exact h
  | some m =>
    obtain ⟨fd, hv, hfd, hm⟩ := h
    exact ⟨fd, hv, hfd, hmap ▸ hm⟩

theorem Points.closable (h : Points me t₀ s v o) : Closable me t₀ s v := by
  cases o with
  | none => exact .inl h
  | some m =>
    obtain ⟨fd, hv, hfd, hm⟩ := h
    exact .inr ⟨fd, hv, hfd, lt_sizeAt (by simp [hm])⟩

/-- What a descriptor points to that is in the map. -/
theorem Points.eq {fd m : ℕ} (h : Points me t₀ s v o) (hv : v = fd) (hm : s.nodeAt me fd = some m) :
    o = some m := by
  cases o with
  | none =>
    have hn : v = -1 := h
    omega
  | some m' =>
    obtain ⟨fd', hv', -, hm'⟩ := h
    obtain rfl : fd = fd' := by omega
    exact hm'.symm.trans hm

theorem Closable.mono (h : Closable me t₀ s v) (hsize : s.sizeAt me ≤ s'.sizeAt me) :
    Closable me t₀ s' v :=
  h.imp_right fun ⟨fd, hv, hfd, hlt⟩ => ⟨fd, hv, hfd, hlt.trans_le hsize⟩

theorem Base.put (h : Base me t₀ s) (hp : Put me i n s s') : Base me t₀ s' ∧ t₀ i = none := by
  refine ⟨⟨hp.tidy, live_of_lt hp.size.1, fun fd hfd => ?_⟩, ?_⟩
  · have hold := h.base fd hfd
    exact (hp.keeps (hold ▸ hfd)).trans hold
  · by_contra hi
    exact hi ((h.base i hi).symm.trans hp.first.free)

theorem Base.same (h : Base me t₀ s) (hs : Same me s s') : Base me t₀ s' := by
  obtain ⟨files, hk⟩ := exists_files h.live
  have hpos := (h.tidy.array me files hk).pos
  rw [← sizeAt_of hk] at hpos
  exact ⟨hs.tidy, live_of_lt (hpos.trans_le hs.size), fun fd hfd => by rw [hs.map, h.base fd hfd]⟩

theorem Base.taken (h : Base me t₀ s) (ht : Taken me i s s') (hi : t₀ i = none) :
    Base me t₀ s' := by
  obtain ⟨files, hk⟩ := exists_files h.live
  have hpos := (h.tidy.array me files hk).pos
  rw [← sizeAt_of hk, ← ht.size] at hpos
  refine ⟨ht.tidy, live_of_lt hpos, fun fd hfd => ?_⟩
  have hne : fd ≠ i := by
    rintro rfl
    exact hfd hi
  rw [ht.keeps hne, h.base fd hfd]

theorem opened_eq {found : Namei} (h : opened found = some n) : found.node = n := by
  rw [opened] at h
  split_ifs at h
  exact Option.some.inj h

theorem Base.nothing (h : Base me t₀ s) : Gained me t₀ (-1) none s s :=
  ⟨h, .refl h.tidy, rfl, fun _ _ => .inr, fun _ _ => id, Nat.le_succ _, le_rfl⟩

/-- **A file is opened** by the shell, or none. -/
theorem Base.sysOpen {found : Namei} {flags mode : ℕ} (h : Base me t₀ s)
    (hroom : s.openAt me < maxOpenFiles) :
    wp (sysOpen me found flags mode) (fun v s' => Gained me t₀ v (opened found) s s') E s := by
  refine (sysOpen_spec h.tidy h.live hroom).mono (fun v s' hs => ?_) fun _ _ => id
  rw [opened]
  split_ifs at hs ⊢
  · obtain ⟨rfl, hs⟩ := hs
    exact ⟨h.same hs, hs.toLocal, rfl, fun _ _ hm => .inr (hs.map ▸ hm),
      fun _ _ hv => hv.of_eq hs.map, hs.count.trans_le (Nat.le_succ _), hs.size⟩
  · obtain ⟨a, rfl, hput⟩ := hs
    obtain ⟨hb, ha⟩ := h.put hput
    refine ⟨hb, hput.toLocal, ⟨a, rfl, ha, hput.self⟩, fun fd m hm => ?_, fun _ _ hv => hv.put hput,
      hput.count.le, hput.size.2⟩
    rcases hput.cases hm with ⟨rfl, rfl⟩ | ⟨-, hm⟩
    · exact .inl ⟨rfl, rfl⟩
    · exact .inr hm

theorem At.redirect (h : At cs w me t₀ n₀ x s) (hp : x.phase = .redirect) :
    Points me t₀ s (x.fdin x.pos) (pipeIn cs w x.pos) ∧ x.fdout x.pos = -1 ∧
      s.openAt me ≤ n₀ + 2 * x.pos := by
  rw [At, hp] at h
  exact h

theorem not_inFlight_redirect : ¬ Phase.InFlight .redirect := by
  rintro (h | h | h) <;> cases h

/-- Nothing of a pipe is left open at the head of the loop. -/
theorem Held.owner (h : Held cs w me t₀ n₀ x s) (hp : ¬ x.phase.InFlight) {fd m : ℕ}
    (hfd : t₀ fd = none) (hm : s.nodeAt me fd = some m) :
    (∃ j, x.fdin j = fd ∧ x.phase.LeftIn j) ∨ (∃ j, x.fdout j = fd ∧ x.phase.LeftOut j) ∨
      Lost cs w m := by
  rcases h.owned fd m hfd hm with (ho | ho | ho) | ho
  · exact .inl ho
  · exact .inr (.inl ho)
  · exact absurd ho.2.1 hp
  · exact .inr (.inr ho)

theorem Held.no_writer (h : Held cs w me t₀ n₀ x s) (hp : ¬ x.phase.InFlight) {fd j : ℕ} :
    s.nodeAt me fd ≠ some (w.wr j) := fun hm => hp (h.writers fd j hm).1.1

theorem pipedInto_succ (hc : cs[i]? = some c) :
    pipedInto cs (i + 1) = (c.doPipe && decide (c.argv 0 ≠ some cdText)) := by
  rw [pipedInto, hc]
  rfl

theorem pipeIn_succ_of_not (hc : cs[i]? = some c) (h : c.doPipe = false ∨ c.argv 0 = some cdText) :
    pipeIn cs w (i + 1) = none := by
  rw [pipeIn, pipedInto_succ hc, if_neg]
  rcases h with h | h <;> simp [h]

/-- No pipe leads past the last command. -/
theorem Ready.pipeIn_length (hr : Ready cs w t₀ n₀) : pipeIn cs w cs.length = none := by
  cases hl : cs.length with
  | zero => rfl
  | succ i =>
    have hi : i < cs.length := hl ▸ Nat.lt_succ_self i
    refine pipeIn_succ_of_not (List.getElem?_eq_getElem hi) (.inl (hr.last _ ?_))
    rw [List.getLast?_eq_getElem?, hl, Nat.add_sub_cancel, List.getElem?_eq_getElem hi]

theorem Ready.lt_of_pipe (hr : Ready cs w t₀ n₀) (hc : cs[i]? = some c) (hd : c.doPipe = true) :
    i + 1 < cs.length := by
  have hlt := (List.getElem?_eq_some_iff.mp hc).1
  rcases Nat.lt_or_ge (i + 1) cs.length with hi | hi
  · exact hi
  · have hi : cs.length - 1 = i := by omega
    have := hr.last c (by rw [List.getLast?_eq_getElem?, hi, hc])
    rw [hd] at this
    cases this

theorem lt_of_cmd (hc : cs[i]? = some c) : i < cs.length := (List.getElem?_eq_some_iff.mp hc).1

/-- What the shell has open at the head of the loop is still to be closed, whatever becomes of the
output of the command. -/
theorem Held.owns (h : Held cs w me t₀ n₀ x s) (hidle : ¬ x.phase.InFlight)
    (hout : x.fdout x.pos = -1) (hin : x'.fdin = x.fdin)
    (hother : ∀ j, j ≠ x.pos → x'.fdout j = x.fdout j)
    (hleft : ∀ j, x'.phase.LeftIn j ∧ x'.phase.LeftOut j) {fd m : ℕ} (hfd : t₀ fd = none)
    (hm : s.nodeAt me fd = some m) : x'.Owns cs fd ∨ Lost cs w m := by
  rcases h.owned fd m hfd hm with (⟨j, e, -⟩ | ⟨j, e, -⟩ | ho) | hl
  · exact .inl (.inl ⟨j, hin ▸ e, (hleft j).1⟩)
  · have hj : j ≠ x.pos := by
      rintro rfl
      omega
    exact .inl (.inr (.inl ⟨j, (hother j hj).trans e, (hleft j).2⟩))
  · exact absurd ho.2.1 hidle
  · exact .inr hl

/-- The output of a command is no pipe. -/
theorem Held.output (hr : Ready cs w t₀ n₀) (h : Held cs w me t₀ n₀ x s) (hp : x.phase = .redirect)
    (hc : cs[x.pos]? = some c) (hne : c.argv 0 ≠ some cdText) (hd : ¬ c.doPipe = true)
    (hg : Gained me t₀ v (sink cs w x.pos) s s') :
    Moved cs w me t₀ n₀ x s { x with phase := .input, fdout := update x.fdout x.pos v } s' := by
  obtain ⟨hin, hout, hcount⟩ := h.place.redirect hp
  have hidle : ¬ x.phase.InFlight := hp ▸ not_inFlight_redirect
  have hopen := hg.count
  refine ⟨⟨hg.base, h.bound, fun fd m hfd hm => ?_, fun j => ⟨(h.closable j).1.mono hg.size, ?_⟩,
    fun j hj => ⟨(h.later j hj).1, ?_⟩, fun fd j hm => ?_, c,
    ⟨hc, hne, hg.keeps _ _ hin, ?_, fun e => absurd e hd, ?_⟩⟩, hg.rest, rfl, rfl⟩
  · rcases hg.cases fd m hm with ⟨rfl, -⟩ | hm
    · exact .inl (.inr (.inl ⟨x.pos, update_self .., trivial⟩))
    · refine h.owns hidle hout ?_ ?_ ?_ hfd hm
      exacts [rfl, fun _ hj => update_of_ne hj _ _, fun _ => ⟨trivial, trivial⟩]
  · dsimp only
    rw [update_apply]
    split_ifs
    · exact hg.points.closable
    · exact (h.closable j).2.mono hg.size
  · exact (update_of_ne (Nat.ne_of_gt hj) _ _).trans (h.later j hj).2
  · rcases hg.cases fd _ hm with ⟨-, e⟩ | hm
    · rw [sink, hc, if_neg (by exact hd)] at e
      split_ifs at e
      exact absurd (opened_eq e) (hr.fresh.outs _ _).2
    · exact absurd hm (h.no_writer hidle)
  · show Points me t₀ s' (update x.fdout x.pos v x.pos) (sink cs w x.pos)
    rw [update_self]
    exact hg.points
  · show _ ≤ n₀ + 2 * x.pos + _
    rw [if_neg hd]
    omega

/-- The output of a command is opened. -/
theorem Held.openOut (hr : Ready cs w t₀ n₀) (h : Held cs w me t₀ n₀ x s) (hp : x.phase = .redirect)
    (hc : cs[x.pos]? = some c) (hne : c.argv 0 ≠ some cdText) :
    wp (openOut w me x c) (Moved cs w me t₀ n₀ x s) E s := by
  obtain ⟨hin, hout, hcount⟩ := h.place.redirect hp
  have hidle : ¬ x.phase.InFlight := hp ▸ not_inFlight_redirect
  have hroom := hr.room
  have hlt := lt_of_cmd hc
  unfold Shell.openOut
  rw [wp_ite]
  split_ifs with hd
  · -- a pipe
    have hany : (cs[x.pos]?.any Cmd.doPipe) = true := by rw [hc]; exact hd
    rw [wp_bind]
    refine (sysPipeFds_spec h.tidy h.live (by omega) (hr.fresh.rd_ne_zero _)
      (hr.fresh.wr_ne_zero _)).mono ?_ fun _ _ => id
    rintro _ s' ⟨a, b, t, rfl, hput, hput'⟩
    obtain ⟨hb, ha⟩ := h.toBase.put hput
    obtain ⟨hb', hb₀⟩ := hb.put hput'
    have hsize := hput.size.2.trans hput'.size.2
    refine ⟨⟨hb', h.bound, fun fd m hfd hm => ?_, fun j => ⟨(h.closable j).1.mono hsize, ?_⟩,
      fun j hj => ⟨(h.later j hj).1, ?_⟩, fun fd j hm => ?_, c,
        ⟨hc, hne, (hin.put hput).put hput', ?_,
      fun _ => ⟨⟨a, rfl, ha, ?_⟩, ?_⟩, ?_⟩⟩, hput.toLocal.trans hput'.toLocal, rfl, rfl⟩
    · rcases hput'.cases hm with ⟨rfl, -⟩ | ⟨-, hm⟩
      · exact .inl (.inr (.inl ⟨x.pos, update_self .., trivial⟩))
      rcases hput.cases hm with ⟨rfl, -⟩ | ⟨-, hm⟩
      · exact .inl (.inr (.inr ⟨rfl, .inl rfl, hany⟩))
      · refine h.owns hidle hout ?_ ?_ ?_ hfd hm
        exacts [rfl, fun _ hj => update_of_ne hj _ _, fun _ => ⟨trivial, trivial⟩]
    · dsimp only
      rw [update_apply]
      split_ifs
      · exact .inr ⟨b, rfl, hb₀, hput'.size.1⟩
      · exact (h.closable j).2.mono hsize
    · exact (update_of_ne (Nat.ne_of_gt hj) _ _).trans (h.later j hj).2
    · rcases hput'.cases hm with ⟨rfl, e⟩ | ⟨-, hm⟩
      · exact ⟨⟨.inl rfl, hany⟩, hr.fresh.wr_inj e, rfl⟩
      rcases hput.cases hm with ⟨-, e⟩ | ⟨-, hm⟩
      · exact absurd e.symm (hr.fresh.rd_ne_wr _ _)
      · exact absurd hm (h.no_writer hidle)
    · rw [sink, if_pos hany]
      exact ⟨b, update_self .., hb₀, hput'.self⟩
    · exact (hput'.keeps (by simp [hput.self])).trans hput.self
    · show (b : ℤ) = update x.fdout x.pos (b : ℤ) x.pos
      rw [update_self]
    · show _ ≤ n₀ + 2 * x.pos + _
      rw [hput'.count, hput.count, if_pos hd]
      omega
  · have hsink : sink cs w x.pos = if c.outfile.isSome then opened (w.outs x.pos) else none := by
      rw [sink, hc, if_neg (by exact hd)]
      rfl
    cases hf : c.outfile with
    | none =>
      rw [hf] at hsink
      have hg : Gained me t₀ (-1) (sink cs w x.pos) s s := by
        rw [hsink]
        exact h.toBase.nothing
      have hm := h.output hr hp hc hne hd hg
      rw [← hout, update_eq_self] at hm
      exact hm
    | some file =>
      rw [hf] at hsink
      rw [wp_bind]
      refine (h.toBase.sysOpen (by omega)).mono (fun v s' hg => ?_) fun _ _ => id
      exact h.output hr hp hc hne hd (hsink ▸ hg)

/-- The head of the loop. -/
theorem Held.redirect (hr : Ready cs w t₀ n₀) (h : Held cs w me t₀ n₀ x s)
    (hp : x.phase = .redirect) :
    wp (shell cs w me x) (Moved cs w me t₀ n₀ x s) E s := by
  obtain ⟨hin, hout, hcount⟩ := h.place.redirect hp
  have hidle : ¬ x.phase.InFlight := hp ▸ not_inFlight_redirect
  unfold shell
  rw [hp]
  dsimp only
  cases hc : cs[x.pos]? with
  | none =>
    have hlen : x.pos = cs.length := le_antisymm h.bound (List.getElem?_eq_none_iff.mp hc)
    refine ⟨⟨h.toBase, h.bound, fun fd m hfd hm => ?_, h.closable, h.later,
      fun fd j hm => absurd hm (h.no_writer hidle), fun j hj => ?_⟩, .refl h.tidy, rfl, rfl⟩
    · refine h.owns hidle hout ?_ ?_ ?_ hfd hm
      exacts [rfl, fun _ _ => rfl, fun _ => ⟨trivial, trivial⟩]
    rcases Nat.eq_or_lt_of_le hj with rfl | hj
    · rw [hlen, hr.pipeIn_length] at hin
      exact ⟨hin, hlen ▸ hout⟩
    · exact h.later j (hlen ▸ hj)
  | some c =>
    dsimp only
    cases hname : c.argv 0 with
    | none => exact absurd hname (hr.named c (List.mem_of_getElem? hc))
    | some name =>
      dsimp only
      rw [wp_ite]
      split_ifs with hcd
      · obtain ⟨hin', hout'⟩ := h.later (x.pos + 1) (Nat.lt_succ_self _)
        have hnone : pipeIn cs w (x.pos + 1) = none := pipeIn_succ_of_not hc (.inr (hcd ▸ hname))
        refine ⟨⟨h.toBase, lt_of_cmd hc, fun fd m hfd hm => ?_, h.closable,
          fun j hj => h.later j (Nat.lt_of_succ_lt hj),
          fun fd j hm => absurd hm (h.no_writer hidle), ?_⟩, .refl h.tidy, rfl, rfl⟩
        · refine h.owns hidle hout ?_ ?_ ?_ hfd hm
          exacts [rfl, fun _ _ => rfl, fun _ => ⟨trivial, trivial⟩]
        · show Points me t₀ s (x.fdin (x.pos + 1)) (pipeIn cs w (x.pos + 1)) ∧
            x.fdout (x.pos + 1) = -1 ∧ s.openAt me ≤ n₀ + 2 * (x.pos + 1)
          rw [hnone]
          exact ⟨hin', hout', by omega⟩
      · exact h.openOut hr hp hc fun e => hcd (Option.some.inj (hname.symm.trans e))

theorem Phase.InFlight.left {p : Phase} (h : p.InFlight) (j : ℕ) : p.LeftIn j ∧ p.LeftOut j := by
  rcases h with rfl | rfl | rfl <;> exact ⟨trivial, trivial⟩

theorem At.input (h : At cs w me t₀ n₀ x s) (hp : x.phase = .input) :
    ∃ c, Flight cs w me t₀ (n₀ + 2 * x.pos) (pipeIn cs w x.pos) x s c := by
  rw [At, hp] at h
  exact h

theorem At.fork (h : At cs w me t₀ n₀ x s) (hp : x.phase = .fork ∨ x.phase = .parent) :
    ∃ c, Flight cs w me t₀ (n₀ + 2 * x.pos + 1) (source cs w x.pos) x s c := by
  rcases hp with hp | hp <;> rw [At, hp] at h <;> exact h

/-- The input of a command may change. -/
theorem Held.owns_input (h : Held cs w me t₀ n₀ x s)
    (hin : Points me t₀ s (x.fdin x.pos) (pipeIn cs w x.pos))
    (hlost : x'.fdin x.pos = x.fdin x.pos ∨ (cs[x.pos]?.bind Cmd.infile).isSome)
    (hother : ∀ j, j ≠ x.pos → x'.fdin j = x.fdin j) (hout : x'.fdout = x.fdout)
    (hfd0 : x'.fd0 = x.fd0) (hpos : x'.pos = x.pos) (hphase : x'.phase.InFlight) {fd m : ℕ}
    (hfd : t₀ fd = none) (hm : s.nodeAt me fd = some m) : x'.Owns cs fd ∨ Lost cs w m := by
  rcases h.owned fd m hfd hm with (⟨j, e, -⟩ | ⟨j, e, -⟩ | ⟨e, -, hpipe⟩) | hl
  · by_cases hj : j = x.pos
    · subst hj
      rcases hlost with hsame | hfile
      · exact .inl (.inl ⟨x.pos, hsame.trans e, (hphase.left _).1⟩)
      · -- the pipe that the command should read from
        have hpipe := hin.eq e hm
        rw [pipeIn] at hpipe
        split_ifs at hpipe with hinto
        exact .inr ⟨x.pos, hinto, hfile, (Option.some.inj hpipe).symm⟩
    · exact .inl (.inl ⟨j, (hother j hj).trans e, (hphase.left _).1⟩)
  · exact .inl (.inr (.inl ⟨j, hout ▸ e, (hphase.left _).2⟩))
  · exact .inl (.inr (.inr ⟨hfd0.trans e, hphase, hpos ▸ hpipe⟩))
  · exact .inr hl

theorem Held.writer (h : Held cs w me t₀ n₀ x s) (hpos : x'.pos = x.pos) (hfd1 : x'.fd1 = x.fd1)
    (hphase : x'.phase.InFlight) {fd j : ℕ} (hm : s.nodeAt me fd = some (w.wr j)) :
    x'.Piping cs ∧ j = x'.pos ∧ x'.fd1 = fd := by
  obtain ⟨hpiping, hj, e⟩ := h.writers fd j hm
  exact ⟨⟨hphase, hpos ▸ hpiping.2⟩, hj.trans hpos.symm, hfd1.trans e⟩

/-- The input of a command is opened. -/
theorem Held.openIn (hr : Ready cs w t₀ n₀) (h : Held cs w me t₀ n₀ x s)
    (hf : Flight cs w me t₀ (n₀ + 2 * x.pos) (pipeIn cs w x.pos) x s c) :
    wp (openIn w me x c) (Moved cs w me t₀ n₀ x s) E s := by
  have hroom := hr.room
  have hlt := lt_of_cmd hf.cmd
  have hcount := hf.count
  have hfork : Phase.InFlight .fork := .inr (.inl rfl)
  unfold Shell.openIn
  cases hfile : c.infile with
  | none =>
    have hsrc : source cs w x.pos = pipeIn cs w x.pos := by
      rw [source, hf.cmd, if_neg (by simp [hfile])]
    refine ⟨⟨h.toBase, h.bound, fun fd m hfd hm => ?_, h.closable, h.later, fun fd j hm => ?_, c,
      ⟨hf.cmd, hf.name, ?_, hf.output, hf.pipe, ?_⟩⟩, .refl h.tidy, rfl, rfl⟩
    · refine h.owns_input hf.input ?_ ?_ ?_ ?_ ?_ ?_ hfd hm
      exacts [.inl rfl, fun _ _ => rfl, rfl, rfl, rfl, hfork]
    · refine h.writer ?_ ?_ ?_ hm
      exacts [rfl, rfl, hfork]
    · show Points me t₀ s (x.fdin x.pos) (source cs w x.pos)
      rw [hsrc]
      exact hf.input
    · show _ ≤ n₀ + 2 * x.pos + 1 + _
      omega
  | some file =>
    have hsome : (cs[x.pos]?.bind Cmd.infile).isSome := by rw [hf.cmd]; simp [hfile]
    have hsrc : source cs w x.pos = opened (w.ins x.pos) := by rw [source, if_pos hsome]
    have hlast : c.doPipe = true → x.pos + 1 < cs.length := hr.lt_of_pipe hf.cmd
    rw [wp_bind]
    refine (h.toBase.sysOpen ?_).mono (fun v s' hg => ?_) fun _ _ => id
    · split_ifs at hcount with hd
      · have := hlast hd
        omega
      · omega
    have hopen := hg.count
    refine ⟨⟨hg.base, h.bound, fun fd m hfd hm => ?_, fun j => ⟨?_, (h.closable j).2.mono hg.size⟩,
      fun j hj => ⟨?_, (h.later j hj).2⟩, fun fd j hm => ?_, c,
      ⟨hf.cmd, hf.name, ?_, hg.keeps _ _ hf.output,
        fun hd => ⟨hg.keeps _ _ (hf.pipe hd).1, (hf.pipe hd).2⟩, ?_⟩⟩, hg.rest, rfl, rfl⟩
    · rcases hg.cases fd m hm with ⟨rfl, -⟩ | hm
      · exact .inl (.inl ⟨x.pos, update_self .., trivial⟩)
      · refine h.owns_input hf.input ?_ ?_ ?_ ?_ ?_ ?_ hfd hm
        exacts [.inr hsome, fun _ hj => update_of_ne hj _ _, rfl, rfl, rfl, hfork]
    · dsimp only
      rw [update_apply]
      split_ifs
      · exact hg.points.closable
      · exact (h.closable j).1.mono hg.size
    · exact (update_of_ne (Nat.ne_of_gt hj) _ _).trans (h.later j hj).1
    · rcases hg.cases fd _ hm with ⟨-, e⟩ | hm
      · exact absurd (opened_eq e) (hr.fresh.ins _ _).2
      · refine h.writer ?_ ?_ ?_ hm
        exacts [rfl, rfl, hfork]
    · show Points me t₀ s' (update x.fdin x.pos v x.pos) (source cs w x.pos)
      rw [hsrc, update_self]
      exact hg.points
    · show _ ≤ n₀ + 2 * x.pos + 1 + _
      omega

theorem Flight.of_eq (h : Flight cs w me t₀ n src x s c) (hmap : s'.nodeAt me = s.nodeAt me)
    (hcount : s'.openAt me = s.openAt me) : Flight cs w me t₀ n src x s' c :=
  ⟨h.cmd, h.name, h.input.of_eq hmap, h.output.of_eq hmap,
    fun hd => ⟨(h.pipe hd).1.of_eq hmap, (h.pipe hd).2⟩, hcount ▸ h.count⟩

theorem At.of_eq (h : At cs w me t₀ n₀ x s) (hmap : s'.nodeAt me = s.nodeAt me)
    (hcount : s'.openAt me = s.openAt me) : At cs w me t₀ n₀ x s' := by
  unfold At at h ⊢
  cases hp : x.phase with
  | redirect =>
    rw [hp] at h
    exact ⟨h.1.of_eq hmap, h.2.1, hcount ▸ h.2.2⟩
  | input | fork | parent =>
    rw [hp] at h
    exact h.imp fun c hf => hf.of_eq hmap hcount
  | _ =>
    rw [hp] at h
    exact h

/-- What another task does does not touch the descriptors of the shell. -/
theorem Held.other {k : ℕ} (h : Held cs w me t₀ n₀ x s) (hk : me ≠ k) (hl : Local k s s') :
    Held cs w me t₀ n₀ x s' := by
  obtain ⟨files, hfiles⟩ := exists_files h.live
  have hlt := h.tidy.lt_nextTask hfiles
  obtain ⟨hmap, hcount, hsize⟩ := hl.other h.tidy hk hlt
  refine ⟨⟨hl.tidy, ?_, fun fd hfd => ?_⟩, h.bound, fun fd n hfd hn => ?_, fun j => ?_, h.later,
    fun fd j hn => ?_, h.place.of_eq hmap hcount⟩
  · rw [hl.files me hk hlt]
    exact h.live
  · rw [hmap]
    exact h.base fd hfd
  · exact h.owned fd n hfd (hmap ▸ hn)
  · exact ⟨(h.closable j).1.mono hsize.ge, (h.closable j).2.mono hsize.ge⟩
  · exact h.writers fd j (hmap ▸ hn)

/-- The ends of the pipe are given away. -/
theorem Held.passPipe (hr : Ready cs w t₀ n₀) (h : Held cs w me t₀ n₀ x s)
    (hf : Flight cs w me t₀ (n₀ + 2 * x.pos + 1) (source cs w x.pos) x s c) :
    wp (passPipe cs me x c) (Moved cs w me t₀ n₀ x s) E s := by
  have hlt := lt_of_cmd hf.cmd
  have hcount := hf.count
  obtain ⟨hin, hout⟩ := h.later (x.pos + 1) (Nat.lt_succ_self _)
  unfold Shell.passPipe
  by_cases hd : c.doPipe = true
  · have hnext := hr.lt_of_pipe hf.cmd hd
    have hany : (cs[x.pos]?.any Cmd.doPipe) = true := by rw [hf.cmd]; exact hd
    have hinto : pipeIn cs w (x.pos + 1) = some (w.rd x.pos) := by
      rw [pipeIn, pipedInto_succ hf.cmd, hd, if_pos (by simp [hf.name])]
      rfl
    obtain ⟨⟨a, hfd0, ha, hrd⟩, hfd1⟩ := hf.pipe hd
    have houtput := hf.output
    rw [sink, if_pos hany] at houtput
    obtain ⟨b, hb, hb₀, hwr⟩ := houtput
    have hab : a ≠ b := by
      rintro rfl
      exact hr.fresh.rd_ne_wr _ _ (Option.some.inj (hrd.symm.trans hwr))
    rw [if_pos hd, if_pos hnext, wp_bind, hfd1, hb]
    refine (sysClose_spec h.tidy (lt_sizeAt (by simp [hwr]))).mono (fun _ s' ht => ?_) fun _ _ => id
    have hopen := ht.count
    rw [if_neg (by simp [hwr])] at hopen
    rw [if_pos hd] at hcount
    refine ⟨⟨h.toBase.taken ht hb₀, hnext.le, fun fd m hfd hm => ?_,
      fun j => ⟨?_, (h.closable j).2.mono ht.size.ge⟩, fun j hj => ⟨?_, ?_⟩, fun fd j hm => ?_, ?_⟩,
      ht.toLocal, rfl, rfl⟩
    · obtain ⟨hne, hm⟩ := ht.cases hm
      rcases h.owned fd m hfd hm with (⟨j, e, -⟩ | ⟨j, e, -⟩ | ⟨e, -⟩) | hl
      · have hj : j ≠ x.pos + 1 := by
          rintro rfl
          omega
        exact .inl (.inl ⟨j, (update_of_ne hj _ _).trans e, trivial⟩)
      · exact .inl (.inr (.inl ⟨j, e, trivial⟩))
      · exact .inl (.inl ⟨x.pos + 1, (update_self ..).trans e, trivial⟩)
      · exact .inr hl
    · dsimp only
      rw [update_apply]
      split_ifs
      · exact (hf.pipe hd).1.closable.mono ht.size.ge
      · exact (h.closable j).1.mono ht.size.ge
    · exact (update_of_ne (Nat.ne_of_gt hj) _ _).trans (h.later j (Nat.lt_of_succ_lt hj)).1
    · exact (h.later j (Nat.lt_of_succ_lt hj)).2
    · obtain ⟨hne, hm⟩ := ht.cases hm
      obtain ⟨-, -, e⟩ := h.writers fd j hm
      omega
    · show Points me t₀ s' (update x.fdin (x.pos + 1) x.fd0 (x.pos + 1)) (pipeIn cs w (x.pos + 1)) ∧
        x.fdout (x.pos + 1) = -1 ∧ s'.openAt me ≤ n₀ + 2 * (x.pos + 1)
      rw [hinto, update_self]
      exact ⟨⟨a, hfd0, ha, (ht.keeps hab).trans hrd⟩, hout, by omega⟩
  · have hany : ¬ (cs[x.pos]?.any Cmd.doPipe) = true := by rw [hf.cmd]; exact hd
    rw [if_neg hd] at hcount
    have hnone : pipeIn cs w (x.pos + 1) = none :=
      pipeIn_succ_of_not hf.cmd (.inl (by simpa using hd))
    rw [if_neg hd]
    refine ⟨⟨h.toBase, hlt, fun fd m hfd hm => ?_,
      h.closable, fun j hj => h.later j (Nat.lt_of_succ_lt hj), fun fd j hm =>
        absurd (h.writers fd j hm).1.2 hany, ?_⟩, .refl h.tidy, rfl, rfl⟩
    · rcases h.owned fd m hfd hm with (⟨j, e, -⟩ | ⟨j, e, -⟩ | ⟨-, -, ho⟩) | hl
      · exact .inl (.inl ⟨j, e, trivial⟩)
      · exact .inl (.inr (.inl ⟨j, e, trivial⟩))
      · exact absurd ho hany
      · exact .inr hl
    · show Points me t₀ s (x.fdin (x.pos + 1)) (pipeIn cs w (x.pos + 1)) ∧
        x.fdout (x.pos + 1) = -1 ∧ s.openAt me ≤ n₀ + 2 * (x.pos + 1)
      rw [hnone]
      exact ⟨hin, hout, by omega⟩

/-! ### The descriptors of a child -/

/-- The descriptors after the node of another one was moved to `d`, if there is one. -/
def moved (d : ℕ) (o : Option ℕ) (m : ℕ → Option ℕ) : ℕ → Option ℕ :=
  o.elim m fun a => update m d (some a)

theorem moved_self {m : ℕ → Option ℕ} {d : ℕ} : moved d o m d = o.or (m d) := by
  cases o with
  | none => rfl
  | some a => exact update_self ..

theorem moved_of_ne {m : ℕ → Option ℕ} {d fd : ℕ} (h : fd ≠ d) : moved d o m fd = m fd := by
  cases o with
  | none => rfl
  | some a => exact update_of_ne h _ _

/-- A descriptor is moved. -/
theorem sets_move {m m' : ℕ → Option ℕ} {d : ℕ} {todo : List Act} (hd : m d ≠ none)
    (hbelow : ∀ j < d, m j ≠ none) (hroom : d < maxOpenFiles) (hnone : o = none → v = -1)
    (hsome : ∀ a, o = some a → ∃ fd : ℕ, v = fd ∧ fd ≠ 0 ∧ fd ≠ d ∧ m fd = some a)
    (h : Sets todo (moved d o m) m') :
    Sets ((if v > 0 then [.close d, .dup v] else []) ++ todo) m m' := by
  cases o with
  | none =>
    rw [if_neg (by rw [hnone rfl]; omega)]
    exact h
  | some a =>
    obtain ⟨fd, rfl, h0, hne, hm⟩ := hsome a rfl
    rw [if_pos (by omega)]
    refine ⟨d, rfl, hd, fd, d, a, rfl, (update_of_ne hne _ _).trans hm,
      ⟨update_self .., fun j hj => ?_⟩, hroom, ?_⟩
    · rw [update_of_ne hj.ne]
      exact hbelow j hj
    · rw [update_idem]
      exact h

theorem sink_eq_wr (hr : Ready cs w t₀ n₀) {j : ℕ} (h : sink cs w i = some (w.wr j)) : j = i := by
  rw [sink] at h
  split_ifs at h
  · exact (hr.fresh.wr_inj (Option.some.inj h)).symm
  · exact absurd (opened_eq h) (hr.fresh.outs _ _).2

theorem sink_ne_rd (hr : Ready cs w t₀ n₀) {j : ℕ} : sink cs w i ≠ some (w.rd j) := fun h => by
  rw [sink] at h
  split_ifs at h
  · exact hr.fresh.rd_ne_wr _ _ (Option.some.inj h).symm
  · exact absurd (opened_eq h) (hr.fresh.outs _ _).1

theorem source_ne_wr (hr : Ready cs w t₀ n₀) {j : ℕ} : source cs w i ≠ some (w.wr j) := fun h => by
  rw [source] at h
  split_ifs at h
  · exact absurd (opened_eq h) (hr.fresh.ins _ _).2
  · rw [pipeIn] at h
    split_ifs at h
    exact hr.fresh.rd_ne_wr _ _ (Option.some.inj h)

theorem source_ne_rd (hr : Ready cs w t₀ n₀) : source cs w i ≠ some (w.rd i) := fun h => by
  rw [source] at h
  split_ifs at h
  · exact absurd (opened_eq h) (hr.fresh.ins _ _).1
  · rw [pipeIn] at h
    split_ifs at h with hinto
    have hi := hr.fresh.rd_inj (Option.some.inj h)
    cases i with
    | zero => cases hinto
    | succ i => exact absurd hi (by omega)

/-- With the input and the output moved, the descriptors are those that a child should have. -/
theorem started_moved (hr : Ready cs w t₀ n₀) {m : ℕ → Option ℕ}
    (hbase : ∀ fd, t₀ fd ≠ none → m fd = t₀ fd) (hwr : ∀ fd j, m fd = some (w.wr j) → j = i) :
    Started cs w t₀ i (moved 0 (source cs w i) (moved 1 (sink cs w i) m)) where
  input := by rw [moved_self, moved_of_ne Nat.zero_ne_one, hbase 0 hr.stdin]
  output := by rw [moved_of_ne Nat.one_ne_zero, moved_self, hbase 1 hr.stdout]
  rest fd h0 h1 hfd := by rw [moved_of_ne h0, moved_of_ne h1, hbase fd hfd]
  writers fd j hn := by
    have hone : moved 1 (sink cs w i) m fd = some (w.wr j) → j = i := fun hn => by
      by_cases h1 : fd = 1
      · rw [h1, moved_self, Option.or_eq_some_iff] at hn
        exact hn.elim (sink_eq_wr hr) fun hn => hwr 1 j hn.2
      · rw [moved_of_ne h1] at hn
        exact hwr fd j hn
    by_cases h0 : fd = 0
    · rw [h0, moved_self, Option.or_eq_some_iff] at hn
      exact hn.elim (fun hn => absurd hn (source_ne_wr hr)) fun hn => hone (h0 ▸ hn.2)
    · rw [moved_of_ne h0] at hn
      exact hone hn

/-- The child closes the reading end of the pipe that it writes into. -/
theorem Held.setup_close (h : Held cs w me t₀ n₀ x s) (hf : Flight cs w me t₀ n src x s c) :
    ∃ m, (∀ fd, s.nodeAt me fd ≠ some (w.rd x.pos) → m fd = s.nodeAt me fd) ∧
      (∀ fd j, m fd = some (w.wr j) → j = x.pos) ∧ ∀ todo m', Sets todo m m' →
        Sets ((if c.doPipe then [.close x.fd0] else []) ++ todo) (s.nodeAt me) m' := by
  by_cases hd : c.doPipe = true
  · obtain ⟨⟨a, ha, -, hrd⟩, -⟩ := hf.pipe hd
    refine ⟨update (s.nodeAt me) a none, fun fd hfd => update_of_ne ?_ _ _, fun fd j hn => ?_,
      fun todo m' hs => ?_⟩
    · rintro rfl
      exact hfd hrd
    · rw [update_apply] at hn
      split_ifs at hn
      exact (h.writers fd j hn).2.1
    · rw [if_pos hd, ha]
      exact ⟨a, rfl, by simp [hrd], hs⟩
  · exact ⟨s.nodeAt me, fun _ _ => rfl, fun fd j hn => (h.writers fd j hn).2.1, fun todo m' hs => by
      rw [if_neg hd]
      exact hs⟩

/-- **What a child does before its program** leads to the descriptors that it should have. -/
theorem Held.setup (hr : Ready cs w t₀ n₀) (h : Held cs w me t₀ n₀ x s)
    (hf : Flight cs w me t₀ n (source cs w x.pos) x s c) :
    ∃ m, Sets (c.setup x.fd0 (x.fdin x.pos) (x.fdout x.pos)) (s.nodeAt me) m ∧
      Started cs w t₀ x.pos m := by
  obtain ⟨m, hkeep, hwr, hclose⟩ := h.setup_close hf
  have hbase : ∀ fd, t₀ fd ≠ none → m fd = t₀ fd := fun fd hfd => by
    rw [hkeep fd (h.base fd hfd ▸ (hr.fresh.old fd _).1), h.base fd hfd]
  have hm0 : m 0 ≠ none := hbase 0 hr.stdin ▸ hr.stdin
  have hm1 : m 1 ≠ none := hbase 1 hr.stdout ▸ hr.stdout
  -- what the shell has opened is neither its input nor its output
  have hpoints : ∀ {v o}, Points me t₀ s v o → o ≠ some (w.rd x.pos) → ∀ a, o = some a →
      ∃ fd : ℕ, v = fd ∧ fd ≠ 0 ∧ fd ≠ 1 ∧ m fd = some a := by
    rintro v _ hp hne a rfl
    obtain ⟨fd, hv, hfd, hn⟩ := hp
    exact ⟨fd, hv, fun e => hr.stdin (e ▸ hfd), fun e => hr.stdout (e ▸ hfd),
      (hkeep fd (hn ▸ hne)).trans hn⟩
  have hnone : ∀ {v o}, Points me t₀ s v o → o = none → v = -1 := by
    rintro v _ hp rfl
    exact hp
  refine ⟨_, ?_, started_moved hr hbase hwr⟩
  unfold Cmd.setup
  rw [List.append_assoc, ← List.append_nil (if x.fdin x.pos > 0 then [Act.close 0, .dup _] else [])]
  refine hclose _ _ (sets_move hm1 (fun j hj => ?_) (by decide) (hnone hf.output)
    (hpoints hf.output (sink_ne_rd hr)) ?_)
  · rw [Nat.lt_one_iff.mp hj]
    exact hm0
  refine sets_move ?_ (fun j hj => absurd hj (Nat.not_lt_zero j)) (by decide) (hnone hf.input)
    (fun a ha => ?_) rfl
  · rw [moved_of_ne Nat.zero_ne_one]
    exact hm0
  · obtain ⟨fd, hv, h0, h1, hn⟩ := hpoints hf.input (source_ne_rd hr) a ha
    exact ⟨fd, hv, h0, h0, (moved_of_ne h1).trans hn⟩

/-- **A child is forked.** -/
theorem Held.forkChild (hr : Ready cs w t₀ n₀) (h : Held cs w me t₀ n₀ x s)
    (hk : Children cs w me t₀ x s)
    (hf : Flight cs w me t₀ (n₀ + 2 * x.pos + 1) (source cs w x.pos) x s c) :
    wp (forkChild me x c)
      (fun x' s' => Held cs w me t₀ n₀ x' s' ∧ Children cs w me t₀ x' s') E s := by
  obtain ⟨files, hfiles⟩ := exists_files h.live
  have hme := h.tidy.lt_nextTask hfiles
  obtain ⟨m, hm, hright⟩ := h.setup hr hf
  unfold Shell.forkChild
  rw [wp_bind]
  refine (forkInt_spec h.tidy h.live).mono (fun pid s' hs => ?_) fun _ _ => id
  obtain ⟨rfl, hs⟩ := hs
  have h' := h.other hme.ne hs.toLocal
  have hf' := hf.of_eq (hs.other h.tidy hme.ne hme).1 (hs.other h.tidy hme.ne hme).2.1
  have hparent : Phase.InFlight .parent := .inr (.inr rfl)
  refine ⟨⟨h'.toBase, h'.bound, fun fd n hfd hn => ?_, h'.closable, h'.later, fun fd j hn => ?_, c,
    ⟨hf'.cmd, hf'.name, hf'.input, hf'.output, hf'.pipe, hf'.count⟩⟩, fun j d hj => ?_,
    fun j j' d d' hj hj' e => ?_, fun j d todo hj htodo => ?_, hk.started⟩
  · rcases h'.owned fd n hfd hn with (⟨j, e, -⟩ | ⟨j, e, -⟩ | ⟨e, -, ho⟩) | hl
    · exact .inl (.inl ⟨j, e, trivial⟩)
    · exact .inl (.inr (.inl ⟨j, e, trivial⟩))
    · exact .inl (.inr (.inr ⟨e, hparent, ho⟩))
    · exact .inr hl
  · refine h'.writer ?_ ?_ ?_ hn
    exacts [rfl, rfl, hparent]
  · rcases child_cases hj with ⟨-, rfl⟩ | ⟨-, hj⟩
    · exact ⟨hme.ne', hs.task⟩
    · exact ⟨(hk.task j d hj).1, (hk.task j d hj).2.trans_le hs.tasks⟩
  · rcases child_cases hj with ⟨rfl, rfl⟩ | ⟨-, h1⟩ <;>
      rcases child_cases hj' with ⟨rfl, rfl⟩ | ⟨-, h2⟩
    · rfl
    · exact absurd e (hk.task _ _ h2).2.ne'
    · exact absurd e (hk.task _ _ h1).2.ne
    · exact hk.inj j j' d d' h1 h2 e
  · rcases child_cases hj with ⟨rfl, rfl⟩ | ⟨-, hj⟩
    · obtain rfl := Option.some.inj htodo
      refine ⟨m, ?_, hright⟩
      show Sets _ (s'.nodeAt s.nextTask) m
      rw [hs.map]
      exact hm
    · rw [(hs.other h.tidy (hk.task j d hj).2.ne (hk.task j d hj).2).1]
      exact hk.todo j d todo hj htodo

/-! ### The end of a line -/

/-- `clean_cmd` closes a descriptor of its own, or none. -/
theorem Base.cleanFd (h : Base me t₀ s) (hv : Closable me t₀ s v) :
    wp (cleanFd me v) (fun _ s' => Base me t₀ s' ∧ Local me s s' ∧ s.sizeAt me ≤ s'.sizeAt me ∧
      ∀ (fd m : ℕ), s'.nodeAt me fd = some m → s.nodeAt me fd = some m ∧ v ≠ fd) E s := by
  unfold Shell.cleanFd
  rcases hv with rfl | ⟨fd, rfl, hfd, hlt⟩
  · exact ⟨h, .refl h.tidy, le_rfl, fun fd m hm => ⟨hm, by omega⟩⟩
  · rw [if_pos (by omega)]
    show wp ((fun _ => ()) <$> sysClose me fd) _ E s
    rw [wp_map]
    refine (sysClose_spec h.tidy hlt).mono (fun _ s' ht => ?_) fun _ _ => id
    refine ⟨h.taken ht hfd, ht.toLocal, ht.size.ge, fun fd' m hm => ?_⟩
    obtain ⟨hne, hm⟩ := ht.cases hm
    exact ⟨hm, by omega⟩

theorem At.closing (h : At cs w me t₀ n₀ x s)
    (hp : x.phase = .wait ∨ (∃ j, x.phase = .closeIn j) ∨ ∃ j, x.phase = .closeOut j) :
    ∀ j, cs.length ≤ j → x.fdin j = -1 ∧ x.fdout j = -1 := by
  rcases hp with hp | ⟨j, hp⟩ | ⟨j, hp⟩ <;> rw [At, hp] at h <;> exact h

theorem not_inFlight_closing {p : Phase}
    (hp : p = .wait ∨ (∃ j, p = .closeIn j) ∨ ∃ j, p = .closeOut j) :
    ¬ p.InFlight := by
  rcases hp with rfl | ⟨j, rfl⟩ | ⟨j, rfl⟩ <;> rintro (h | h | h) <;> cases h

/-- All children have ended. -/
theorem Held.wait (h : Held cs w me t₀ n₀ x s) (hp : x.phase = .wait) :
    wp (shell cs w me x) (Moved cs w me t₀ n₀ x s) E s := by
  have hidle := not_inFlight_closing (.inl hp)
  unfold shell
  rw [hp]
  refine ⟨⟨h.toBase, h.bound, fun fd m hfd hm => ?_, h.closable, h.later,
    fun fd j hm => absurd hm (h.no_writer hidle), h.place.closing (.inl hp)⟩,
      .refl h.tidy, rfl, rfl⟩
  rcases h.owner hidle hfd hm with ⟨j, e, -⟩ | ⟨j, e, -⟩ | hl
  · exact .inl (.inl ⟨j, e, Nat.zero_le j⟩)
  · exact .inl (.inr (.inl ⟨j, e, Nat.zero_le j⟩))
  · exact .inr hl

theorem Held.closeIn {j : ℕ} (h : Held cs w me t₀ n₀ x s) (hp : x.phase = .closeIn j) :
    wp (shell cs w me x) (Moved cs w me t₀ n₀ x s) E s := by
  have hidle := not_inFlight_closing (.inr (.inl ⟨j, hp⟩))
  unfold shell
  rw [hp]
  dsimp only
  rw [wp_bind]
  refine (h.toBase.cleanFd (h.closable j).1).mono (fun _ s' hs => ?_) fun _ _ => id
  obtain ⟨hb, hl, hsize, hmap⟩ := hs
  refine ⟨⟨hb, h.bound, fun fd m hfd hm => ?_,
    fun i => ⟨(h.closable i).1.mono hsize, (h.closable i).2.mono hsize⟩, h.later,
    fun fd i hm => absurd (hmap fd _ hm).1 (h.no_writer hidle),
    h.place.closing (.inr (.inl ⟨j, hp⟩))⟩, hl, rfl, rfl⟩
  obtain ⟨hm, hne⟩ := hmap fd m hm
  rcases h.owner hidle hfd hm with ⟨i, e, hi⟩ | ⟨i, e, hi⟩ | hlost <;> try rw [hp] at hi
  · have hij : i ≠ j := fun hij => hne (hij ▸ e)
    exact .inl (.inl ⟨i, e, Nat.lt_of_le_of_ne hi hij.symm⟩)
  · exact .inl (.inr (.inl ⟨i, e, hi⟩))
  · exact .inr hlost

theorem Held.closeOut {j : ℕ} (h : Held cs w me t₀ n₀ x s) (hp : x.phase = .closeOut j) :
    wp (shell cs w me x) (Moved cs w me t₀ n₀ x s) E s := by
  have hidle := not_inFlight_closing (.inr (.inr ⟨j, hp⟩))
  unfold shell
  rw [hp]
  dsimp only
  rw [wp_bind]
  refine (h.toBase.cleanFd (h.closable j).2).mono (fun _ s' hs => ?_) fun _ _ => id
  obtain ⟨hb, hl, hsize, hmap⟩ := hs
  refine ⟨⟨hb, h.bound, fun fd m hfd hm => ?_,
    fun i => ⟨(h.closable i).1.mono hsize, (h.closable i).2.mono hsize⟩, h.later,
    fun fd i hm => absurd (hmap fd _ hm).1 (h.no_writer hidle),
    h.place.closing (.inr (.inr ⟨j, hp⟩))⟩, hl, rfl, rfl⟩
  obtain ⟨hm, hne⟩ := hmap fd m hm
  rcases h.owner hidle hfd hm with ⟨i, e, hi⟩ | ⟨i, e, hi⟩ | hlost <;> try rw [hp] at hi
  · exact .inl (.inl ⟨i, e, hi⟩)
  · have hij : i ≠ j := fun hij => hne (hij ▸ e)
    exact .inl (.inr (.inl ⟨i, e, Nat.lt_of_le_of_ne hi hij.symm⟩))
  · exact .inr hlost

/-! ### Runs -/

/-- **A part of the shell** can be run, and keeps what holds of its descriptors and of the
children. -/
theorem Held.shell (hr : Ready cs w t₀ n₀) (h : Held cs w me t₀ n₀ x s)
    (hk : Children cs w me t₀ x s) :
    wp (shell cs w me x)
      (fun x' s' => Held cs w me t₀ n₀ x' s' ∧ Children cs w me t₀ x' s') E s := by
  have hmoved : ∀ x' s', Moved cs w me t₀ n₀ x s x' s' →
      Held cs w me t₀ n₀ x' s' ∧ Children cs w me t₀ x' s' := fun x' s' hm =>
    ⟨hm.held, hk.local h.tidy hm.rest hm.child hm.started⟩
  cases hp : x.phase with
  | redirect => exact (h.redirect hr hp).mono hmoved fun _ _ => id
  | input =>
    obtain ⟨c, hf⟩ := h.place.input hp
    unfold Shell.shell onCmd
    rw [hp, hf.cmd]
    exact (h.openIn hr hf).mono hmoved fun _ _ => id
  | fork =>
    obtain ⟨c, hf⟩ := h.place.fork (.inl hp)
    unfold Shell.shell onCmd
    rw [hp, hf.cmd]
    exact h.forkChild hr hk hf
  | parent =>
    obtain ⟨c, hf⟩ := h.place.fork (.inr hp)
    unfold Shell.shell onCmd
    rw [hp, hf.cmd]
    exact (h.passPipe hr hf).mono hmoved fun _ _ => id
  | wait => exact (h.wait hp).mono hmoved fun _ _ => id
  | closeIn j => exact (h.closeIn hp).mono hmoved fun _ _ => id
  | closeOut j => exact (h.closeOut hp).mono hmoved fun _ _ => id

/-- The shell does not know where its children are. -/
theorem Held.relabel {child : ℕ → Option Child} {started : ℕ → Option (ℕ → Option ℕ)}
    (h : Held cs w me t₀ n₀ x s) :
    Held cs w me t₀ n₀ { x with child := child, started := started } s := by
  refine ⟨h.toBase, h.bound, h.owned, h.closable, h.later, h.writers, ?_⟩
  have hplace := h.place
  unfold At at hplace ⊢
  cases hp : x.phase with
  | redirect =>
    rw [hp] at hplace
    exact hplace
  | input | fork | parent =>
    rw [hp] at hplace
    exact hplace.imp fun c hf => ⟨hf.cmd, hf.name, hf.input, hf.output, hf.pipe, hf.count⟩
  | _ =>
    rw [hp] at hplace
    exact hplace

/-- **A step keeps what holds** of the shell and of the children. -/
theorem Step.keeps {y y' : Jobs × Descriptors.State} (hr : Ready cs w t₀ n₀)
    (h : Held cs w me t₀ n₀ y.1 y.2 ∧ Children cs w me t₀ y.1 y.2) (hs : Step cs w me y y') :
    Held cs w me t₀ n₀ y'.1 y'.2 ∧ Children cs w me t₀ y'.1 y'.2 := by
  obtain ⟨h, hk⟩ := h
  cases hs with
  | shell hdone hwait hrun => exact (h.shell (E := fun _ _ => True) hr hk).ok hrun
  | act hc hrun =>
    obtain ⟨m, hm, hright⟩ := hk.todo _ _ _ hc rfl
    obtain ⟨hl, hrest⟩ := (Act.run_spec (E := fun _ _ => True) h.tidy hm).ok hrun
    refine ⟨(h.other (hk.task _ _ hc).1.symm hl).relabel,
      hk.next h.tidy hc hl rfl (fun l hl => ?_) hk.started⟩
    obtain rfl := Option.some.inj hl
    exact ⟨m, hrest, hright⟩
  | @exec x s i k hc =>
    obtain ⟨m, rfl, hright⟩ := hk.todo _ _ _ hc rfl
    refine ⟨h.relabel,
      hk.next h.tidy hc (.refl h.tidy) rfl (fun l hl => by cases hl) fun j m hj => ?_⟩
    change update x.started i _ j = some m at hj
    rw [update_apply] at hj
    split_ifs at hj with hji
    · exact hji ▸ Option.some.inj hj ▸ hright
    · exact hk.started j m hj
  | @program x s s' i k hc hl =>
    have hsame : x.child = update x.child i (some ⟨k, none⟩) := by rw [← hc, update_eq_self]
    exact ⟨h.other (hk.task _ _ hc).1.symm hl, hk.next h.tidy hc hl hsame (fun l hl => by cases hl)
      hk.started⟩

theorem Held.init (hr : Ready cs w (s.nodeAt me) (s.openAt me)) (ht : s.Tidy)
    (hlive : s.files me ≠ none) : Held cs w me (s.nodeAt me) (s.openAt me) Jobs.init s where
  tidy := ht
  live := hlive
  base _ _ := rfl
  bound := Nat.zero_le _
  owned fd n hfd hn := by
    rw [hfd] at hn
    cases hn
  closable _ := ⟨.inl rfl, .inl rfl⟩
  later _ _ := ⟨rfl, rfl⟩
  writers fd j hn := absurd hn (hr.fresh.old fd j).2
  place := ⟨rfl, rfl, le_rfl⟩

theorem Children.init : Children cs w me t₀ Jobs.init s where
  task _ _ h := by cases h
  inj _ _ _ _ h := by cases h
  todo _ _ _ h := by cases h
  started _ _ h := by cases h

end

/-- The shell has read the commands. -/
structure AtPrompt (s : Descriptors.State) : Prop
    extends Ready cs w (s.nodeAt me) (s.openAt me) where
  tidy : s.Tidy
  live : s.files me ≠ none

section

variable {cs w me} {x : Jobs} {s s₀ : Descriptors.State}

theorem AtPrompt.run {y : Jobs × Descriptors.State} (hp : AtPrompt cs w me s₀)
    (h : Reach (Step cs w me) (Jobs.init, s₀) y) :
    Held cs w me (s₀.nodeAt me) (s₀.openAt me) y.1 y.2 ∧ Children cs w me (s₀.nodeAt me) y.1 y.2 :=
  Reach.invariant (I := fun y => Held cs w me (s₀.nodeAt me) (s₀.openAt me) y.1 y.2 ∧
    Children cs w me (s₀.nodeAt me) y.1 y.2) (fun _ _ hy hs => hs.keeps hp.toReady hy)
    ⟨.init hp.toReady hp.tidy hp.live, .init⟩ h

/-! ### A line runs to its end -/

variable (cs) in
/-- The shell is in phase `ph` of command `p`, the children that it has forked have ended, and the
programs of the first `n` commands were started. -/
structure Settled (ph : Phase) (p n : ℕ) (x : Jobs) (s : Descriptors.State) : Prop where
  phase : x.phase = ph
  pos : x.pos = p
  allOver : x.Over s
  started : ∀ i < n, ∀ c, cs[i]? = some c → c.argv 0 ≠ some cdText → x.started i ≠ none

variable (cs w me s₀) in
/-- The line can be run to where the shell is settled. -/
def Settles (ph : Phase) (p n : ℕ) : Prop :=
  ∃ x s, Reach (Step cs w me) (Jobs.init, s₀) (x, s) ∧ Settled cs ph p n x s

theorem Settled.moved {ph ph' : Phase} {p p' n n₀ : ℕ} {x' : Jobs} {s' : Descriptors.State}
    {t₀ : ℕ → Option ℕ} (h : Settled cs ph p n x s) (hk : Children cs w me t₀ x s)
    (hm : Moved cs w me t₀ n₀ x s x' s') (hphase : x'.phase = ph') (hpos : x'.pos = p') :
    Settled cs ph' p' n x' s' where
  phase := hphase
  pos := hpos
  allOver i c hc := by
    rw [hm.child] at hc
    rw [hm.rest.files _ (hk.task i c hc).1 (hk.task i c hc).2]
    exact h.allOver i c hc
  started := hm.started ▸ h.started

/-- A part of the shell is run. -/
theorem Settled.step {ph ph' : Phase} {p p' n : ℕ} (hp : AtPrompt cs w me s₀)
    (hreach : Reach (Step cs w me) (Jobs.init, s₀) (x, s)) (h : Settled cs ph p n x s)
    (hne : ph ≠ .closeIn cs.length)
    (hmoved :
      wp (shell cs w me x) (Moved cs w me (s₀.nodeAt me) (s₀.openAt me) x s) (fun _ _ => False) s)
    (hflow : wp (shell cs w me x) (fun x' _ => x'.phase = ph' ∧ x'.pos = p') (fun _ _ => True) s) :
    Settles cs w me s₀ ph' p' n := by
  obtain ⟨x', s', hrun, hm⟩ := hmoved.returns
  obtain ⟨hphase, hpos⟩ := hflow.ok hrun
  have hdone : ¬ x.Done cs := fun hd => hne (h.phase.symm.trans hd)
  exact ⟨x', s', .tail hreach (.shell hdone (fun _ => h.allOver) hrun),
    h.moved (hp.run hreach).2 hm hphase hpos⟩

/-- A child runs its program, which ends. -/
theorem child_ends {i k : ℕ} {todo : List Act} (hp : AtPrompt cs w me s₀)
    (h : Reach (Step cs w me) (Jobs.init, s₀) (x, s)) (hc : x.child i = some ⟨k, some todo⟩) :
    ∃ m s', Reach (Step cs w me) (Jobs.init, s₀) ({ x with
      child := update x.child i (some ⟨k, none⟩)
      started := update x.started i (some m) }, s') ∧ Local k s s' ∧ s'.files k = none := by
  induction todo generalizing x s with
  | nil =>
    have htidy := (hp.run h).1.tidy
    exact ⟨s.nodeAt k, s.remove k,
      .tail (.tail h (.exec hc)) (.program (update_self ..) (.remove htidy)), .remove htidy,
      update_self ..⟩
  | cons a todo ih =>
    obtain ⟨hheld, hk⟩ := hp.run h
    obtain ⟨m, hm, -⟩ := hk.todo i _ _ hc rfl
    obtain ⟨r, t, hrun, hlocal, -⟩ := (Act.run_spec hheld.tidy hm).returns
    obtain ⟨m', s', hreach, hrest, hnone⟩ := ih (.tail h (.act hc hrun)) (update_self ..)
    dsimp only at hreach
    rw [update_idem] at hreach
    exact ⟨m', s', hreach, hlocal.trans hrest, hnone⟩

theorem settles_input {p n : ℕ} (hp : AtPrompt cs w me s₀) (h : Settles cs w me s₀ .input p n) :
    Settles cs w me s₀ .fork p n := by
  obtain ⟨x, s, hreach, h⟩ := h
  obtain ⟨hheld, -⟩ := hp.run hreach
  obtain ⟨c, hf⟩ := hheld.place.input h.phase
  have hshell : shell cs w me x = Shell.openIn w me x c := by
    unfold Shell.shell onCmd
    rw [h.phase]
    dsimp only
    rw [hf.cmd]
  refine h.step hp hreach nofun (hshell ▸ hheld.openIn hp.toReady hf) ?_
  rw [hshell]
  unfold Shell.openIn
  cases c.infile with
  | none => exact ⟨rfl, h.pos⟩
  | some file =>
    rw [wp_bind]
    exact wp_of_forall (fun _ _ => ⟨rfl, h.pos⟩) fun _ _ => trivial

theorem settles_parent {p n : ℕ} (hp : AtPrompt cs w me s₀) (h : Settles cs w me s₀ .parent p n) :
    Settles cs w me s₀ .redirect (p + 1) n := by
  obtain ⟨x, s, hreach, h⟩ := h
  obtain ⟨hheld, -⟩ := hp.run hreach
  obtain ⟨c, hf⟩ := hheld.place.fork (.inr h.phase)
  have hshell : shell cs w me x = Shell.passPipe cs me x c := by
    unfold Shell.shell onCmd
    rw [h.phase]
    dsimp only
    rw [hf.cmd]
  refine h.step hp hreach nofun (hshell ▸ hheld.passPipe hp.toReady hf) ?_
  rw [hshell]
  unfold Shell.passPipe
  split_ifs with hd hnext
  · rw [wp_bind]
    exact wp_of_forall (fun _ _ => ⟨rfl, congrArg (· + 1) h.pos⟩) fun _ _ => trivial
  · exact trivial
  · exact ⟨rfl, congrArg (· + 1) h.pos⟩

/-- A command is started, and its program ends. -/
theorem settles_fork {p : ℕ} (hp : AtPrompt cs w me s₀) (h : Settles cs w me s₀ .fork p p) :
    Settles cs w me s₀ .parent p (p + 1) := by
  obtain ⟨x, s, hreach, h⟩ := h
  obtain ⟨hheld, hk⟩ := hp.run hreach
  obtain ⟨c, hf⟩ := hheld.place.fork (.inl h.phase)
  obtain ⟨pid, t, hrun, -, hfork⟩ := (forkInt_spec hheld.tidy hheld.live).returns
  have hshell : shell cs w me x s = .ok { x with
      phase := .parent
      child := update x.child x.pos
        (some ⟨pid.toNat, some (c.setup x.fd0 (x.fdin x.pos) (x.fdout x.pos))⟩) } t := by
    unfold Shell.shell onCmd Shell.forkChild
    rw [h.phase]
    dsimp only
    rw [hf.cmd]
    exact bind_of_ok hrun
  have hdone : ¬ x.Done cs := fun hd => by
    cases h.phase.symm.trans hd
  obtain ⟨m, s', hreach', hlocal, hnone⟩ :=
    child_ends hp (.tail hreach (.shell hdone (fun _ => h.allOver) hshell)) (update_self ..)
  refine ⟨_, s', hreach', rfl, h.pos, fun i d hd => ?_, fun i hi d hd hname => ?_⟩
  · dsimp only at hd
    rw [update_idem] at hd
    rcases child_cases hd with ⟨-, rfl⟩ | ⟨-, hd⟩
    · exact hnone
    · have hold := (hk.task i d hd).2
      by_cases hsame : d.task = pid.toNat
      · rw [hsame]
        exact hnone
      · rw [hlocal.files _ hsame (hold.trans_le hfork.tasks), hfork.files _ hold.ne hold]
        exact h.allOver i d hd
  · show update x.started x.pos (some m) i ≠ none
    rw [update_apply]
    split_ifs with hip
    · exact Option.some_ne_none _
    · rw [h.pos] at hip
      exact h.started i (by omega) d hd hname

theorem wp_openOut {c : Cmd} :
    wp (openOut w me x c) (fun x' _ => x'.phase = .input ∧ x'.pos = x.pos)
    (fun _ _ => True) s := by
  unfold Shell.openOut
  split_ifs with hd
  · rw [wp_bind]
    exact wp_of_forall (fun _ _ => ⟨rfl, rfl⟩) fun _ _ => trivial
  · cases c.outfile with
    | none => exact ⟨rfl, rfl⟩
    | some file =>
      rw [wp_bind]
      exact wp_of_forall (fun _ _ => ⟨rfl, rfl⟩) fun _ _ => trivial

/-- A command is run. -/
theorem settles_succ {p : ℕ} (hp : AtPrompt cs w me s₀) (hlt : p < cs.length)
    (h : Settles cs w me s₀ .redirect p p) : Settles cs w me s₀ .redirect (p + 1) (p + 1) := by
  obtain ⟨x, s, hreach, h⟩ := h
  obtain rfl := h.pos
  obtain ⟨hheld, -⟩ := hp.run hreach
  have hc := List.getElem?_eq_getElem hlt
  generalize cs[x.pos] = c at hc
  obtain ⟨name, hname⟩ := Option.ne_none_iff_exists'.mp (hp.named c (List.mem_of_getElem? hc))
  by_cases hcd : name = cdText
  · have hflow : wp (shell cs w me x) (fun x' _ => x'.phase = .redirect ∧ x'.pos = x.pos + 1)
        (fun _ _ => True) s := by
      unfold Shell.shell
      rw [h.phase]
      dsimp only
      rw [hc]
      dsimp only
      rw [hname]
      dsimp only
      rw [if_pos hcd]
      exact ⟨rfl, rfl⟩
    obtain ⟨x', s', hreach', h'⟩ := h.step hp hreach nofun (hheld.redirect hp.toReady h.phase) hflow
    refine ⟨x', s', hreach', h'.phase, h'.pos, h'.allOver, fun i hi d hd hne => ?_⟩
    rcases Nat.lt_succ_iff_lt_or_eq.mp hi with hi | rfl
    · exact h'.started i hi d hd hne
    · obtain rfl := Option.some.inj (hc.symm.trans hd)
      exact absurd (hname.trans (congrArg some hcd)) hne
  · have hflow : wp (shell cs w me x) (fun x' _ => x'.phase = .input ∧ x'.pos = x.pos)
        (fun _ _ => True) s := by
      unfold Shell.shell
      rw [h.phase]
      dsimp only
      rw [hc]
      dsimp only
      rw [hname]
      dsimp only
      rw [if_neg hcd]
      exact wp_openOut
    have hin := h.step hp hreach nofun (hheld.redirect hp.toReady h.phase) hflow
    exact settles_parent hp (settles_fork hp (settles_input hp hin))

/-- All commands are run. -/
theorem settles_redirect {p : ℕ} (hp : AtPrompt cs w me s₀) (hle : p ≤ cs.length) :
    Settles cs w me s₀ .redirect p p := by
  induction p with
  | zero =>
    refine ⟨Jobs.init, s₀, .refl, rfl, rfl, fun i c hc => ?_,
      fun i hi => absurd hi (Nat.not_lt_zero i)⟩
    cases hc
  | succ p ih => exact settles_succ hp hle (ih (Nat.le_of_succ_le hle))

theorem settles_wait (hp : AtPrompt cs w me s₀)
    (h : Settles cs w me s₀ .redirect cs.length cs.length) :
    Settles cs w me s₀ (.closeIn 0) cs.length cs.length := by
  have hwait : Settles cs w me s₀ .wait cs.length cs.length := by
    obtain ⟨x, s, hreach, h⟩ := h
    refine h.step hp hreach nofun ((hp.run hreach).1.redirect hp.toReady h.phase) ?_
    unfold Shell.shell
    rw [h.phase]
    dsimp only
    rw [h.pos, List.getElem?_eq_none (Nat.le_refl _)]
    exact ⟨rfl, rfl⟩
  obtain ⟨x, s, hreach, h⟩ := hwait
  refine h.step hp hreach nofun ((hp.run hreach).1.wait h.phase) ?_
  unfold Shell.shell
  rw [h.phase]
  exact ⟨rfl, h.pos⟩

/-- `clean_cmd` closes the descriptors of a command. -/
theorem settles_clean {j : ℕ} (hp : AtPrompt cs w me s₀) (hlt : j < cs.length)
    (h : Settles cs w me s₀ (.closeIn j) cs.length cs.length) :
    Settles cs w me s₀ (.closeIn (j + 1)) cs.length cs.length := by
  have hout : Settles cs w me s₀ (.closeOut j) cs.length cs.length := by
    obtain ⟨x, s, hreach, h⟩ := h
    have hne : Phase.closeIn j ≠ .closeIn cs.length :=
      fun e => Nat.ne_of_lt hlt (Phase.closeIn.inj e)
    refine h.step hp hreach hne ((hp.run hreach).1.closeIn h.phase) ?_
    unfold Shell.shell
    rw [h.phase]
    dsimp only
    rw [wp_bind]
    exact wp_of_forall (fun _ _ => ⟨rfl, h.pos⟩) fun _ _ => trivial
  obtain ⟨x, s, hreach, h⟩ := hout
  refine h.step hp hreach nofun ((hp.run hreach).1.closeOut h.phase) ?_
  unfold Shell.shell
  rw [h.phase]
  dsimp only
  rw [wp_bind]
  exact wp_of_forall (fun _ _ => ⟨rfl, h.pos⟩) fun _ _ => trivial

theorem settles_closeIn {j : ℕ} (hp : AtPrompt cs w me s₀) (hle : j ≤ cs.length) :
    Settles cs w me s₀ (.closeIn j) cs.length cs.length := by
  induction j with
  | zero => exact settles_wait hp (settles_redirect hp (Nat.le_refl _))
  | succ j ih => exact settles_clean hp hle (ih (Nat.le_of_succ_le hle))

/-- **Every line can be run to its end**, with all its programs started. -/
theorem line_ends (hp : AtPrompt cs w me s₀) : ∃ x s, Reach (Step cs w me) (Jobs.init, s₀) (x, s) ∧
    x.Done cs ∧ ∀ i c, cs[i]? = some c → c.argv 0 ≠ some cdText → x.started i ≠ none := by
  obtain ⟨x, s, hreach, h⟩ := settles_closeIn hp (Nat.le_refl cs.length)
  exact ⟨x, s, hreach, h.phase, fun i c hc => h.started i (lt_of_cmd hc) c hc⟩

/-- **The commands of a line** are started with their input and their output where they belong, in
whatever order the shell and its children run, and neither the shell nor a child is ever stuck. -/
theorem pipeline_started (hp : AtPrompt cs w me s₀)
    (h : Reach (Step cs w me) (Jobs.init, s₀) (x, s)) :
    (∀ i m, x.started i = some m → Started cs w (s₀.nodeAt me) i m) ∧
    (∃ x' s', shell cs w me x s = .ok x' s') ∧
    ∀ i k a todo, x.child i = some ⟨k, some (a :: todo)⟩ → ∃ r s', Act.run k a s = .ok r s' := by
  obtain ⟨hheld, hk⟩ := hp.run h
  refine ⟨hk.started, ?_, fun i k a todo hc => ?_⟩
  · obtain ⟨x', s', hrun, -⟩ := (hheld.shell hp.toReady hk).returns
    exact ⟨x', s', hrun⟩
  · obtain ⟨m, hm, -⟩ := hk.todo i _ _ hc rfl
    obtain ⟨r, s', hrun, -⟩ := (Act.run_spec hheld.tidy hm).returns
    exact ⟨r, s', hrun⟩

/-- **After a line** the shell has the descriptors that it had before it, and the reading ends of
the pipes whose reader has an input file, unless it has closed them for another command. -/
theorem pipeline_clean (hp : AtPrompt cs w me s₀) (h : Reach (Step cs w me) (Jobs.init, s₀) (x, s))
    (hdone : x.Done cs) (fd : ℕ) :
    s.nodeAt me fd = s₀.nodeAt me fd ∨
      s₀.nodeAt me fd = none ∧ ∃ n, s.nodeAt me fd = some n ∧ Lost cs w n := by
  obtain ⟨hheld, -⟩ := hp.run h
  have hclosing : x.phase = .wait ∨ (∃ j, x.phase = .closeIn j) ∨ ∃ j, x.phase = .closeOut j :=
    .inr (.inl ⟨_, hdone⟩)
  cases hfd : s₀.nodeAt me fd with
  | some n => exact .inl ((hheld.base fd (by simp [hfd])).trans hfd)
  | none =>
    cases hn : s.nodeAt me fd with
    | none => exact .inl rfl
    | some n =>
      refine .inr ⟨rfl, n, rfl, ?_⟩
      have hneg := hheld.place.closing hclosing
      rcases hheld.owner (not_inFlight_closing hclosing) hfd hn with ⟨j, e, hj⟩ | ⟨j, e, hj⟩ | hl
      · rw [hdone] at hj
        have := (hneg j hj).1
        omega
      · rw [hdone] at hj
        have := (hneg j hj).2
        omega
      · exact hl

end

/-! ### The line `a | b < f` -/

/-- The commands of the line. -/
def pipedLine : List Cmd :=
  [Command.cmd ⟨[[97]], none, none, false, true⟩,
    Command.cmd ⟨[[98]], none, some [102], false, false⟩]

/-- The file is node 7. -/
def oneFile : World := ⟨fun i => 2 * i + 10, fun i => 2 * i + 11, fun _ => ⟨-1, 0⟩, fun _ => ⟨0, 7⟩⟩

theorem boot_nodeAt {fd n : ℕ} (h : boot.nodeAt 0 fd = some n) : n = 1 := by
  obtain ⟨f, -, hf⟩ := Option.map_eq_some_iff.mp h
  exact hf.symm

theorem atPrompt_pipedLine : AtPrompt pipedLine oneFile 0 boot where
  named := List.forall_mem_cons.mpr ⟨Option.some_ne_none _,
    List.forall_mem_singleton.mpr (Option.some_ne_none _)⟩
  last c hc := by
    obtain rfl := Option.some.inj hc
    rfl
  stdin := Option.some_ne_none _
  stdout := Option.some_ne_none _
  fresh := by
    refine ⟨fun i => Nat.succ_ne_zero _, fun i => Nat.succ_ne_zero _, fun i j h => ?_,
      fun i j h => ?_, fun i j h => ?_, fun fd i => ⟨fun h => ?_, fun h => ?_⟩, fun i j => ⟨?_, ?_⟩,
      fun i j => ⟨fun h => ?_, fun h => ?_⟩⟩
    · have h : 2 * i + 10 = 2 * j + 10 := h
      omega
    · have h : 2 * i + 11 = 2 * j + 11 := h
      omega
    · have h : 2 * i + 10 = 2 * j + 11 := h
      omega
    · have h : 2 * i + 10 = 1 := boot_nodeAt h
      omega
    · have h : 2 * i + 11 = 1 := boot_nodeAt h
      omega
    · exact (Nat.succ_ne_zero _).symm
    · exact (Nat.succ_ne_zero _).symm
    · have h : 7 = 2 * j + 10 := h
      omega
    · have h : 7 = 2 * j + 11 := h
      omega
  room := by decide
  tidy := boot_tidy
  live := Option.some_ne_none _

/-- The program `a` writes into the pipe, and the program `b` reads from the file. -/
theorem pipeline_started_pipedLine :
    ∃ x s m m', Reach (Step pipedLine oneFile 0) (Jobs.init, boot) (x, s) ∧
    x.started 0 = some m ∧ m 1 = some 11 ∧ x.started 1 = some m' ∧ m' 0 = some 7 := by
  obtain ⟨x, s, h, -, hall⟩ := line_ends atPrompt_pipedLine
  obtain ⟨m, hm⟩ := Option.ne_none_iff_exists'.mp (hall 0 _ rfl (by decide))
  obtain ⟨m', hm'⟩ := Option.ne_none_iff_exists'.mp (hall 1 _ rfl (by decide))
  have hstarted := (pipeline_started atPrompt_pipedLine h).1
  exact ⟨x, s, m, m', h, hm, (hstarted 0 m hm).output, hm', (hstarted 1 m' hm').input⟩

/-- The reading end of the pipe, which is node 10, can be left. -/
theorem pipeline_clean_pipedLine :
    ∃ x s, Reach (Step pipedLine oneFile 0) (Jobs.init, boot) (x, s) ∧
    x.Done pipedLine ∧ ∀ fd, s.nodeAt 0 fd = boot.nodeAt 0 fd ∨
      boot.nodeAt 0 fd = none ∧ s.nodeAt 0 fd = some 10 := by
  obtain ⟨x, s, h, hdone, -⟩ := line_ends atPrompt_pipedLine
  refine ⟨x, s, h, hdone, fun fd => ?_⟩
  refine (pipeline_clean atPrompt_pipedLine h hdone fd).imp_right fun ⟨hnone, n, hn, hlost⟩ => ?_
  obtain ⟨i, -, hfile, rfl⟩ := hlost
  refine ⟨hnone, hn.trans ?_⟩
  match i with
  | 0 => exact absurd hfile (by decide)
  | 1 => rfl
  | i + 2 => exact absurd hfile (by simp [pipedLine])

end Cosiris.Shell
