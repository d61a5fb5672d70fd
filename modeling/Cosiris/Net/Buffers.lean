import Cosiris.Lib.Custody
import Cosiris.Lib.Runs
import Mathlib.Logic.Function.Basic

/-!
# Who has a network buffer

The buffers of `net_buf_alloc`, from the interrupt through `netq` and `net_task` to the sockets
and their readers, and those of `udp_write` and `arp_resolve`. A step is what runs between two
points where another task may go on. Some paths lose a buffer, `udp_read` does not look again
whether there is a datagram after its sleep, and `net_task` reads a flag of a buffer that its
reader may have freed. In runs in which no step gets there (`Event.Quiet`) every buffer is freed
once or in one place. -/

namespace Cosiris.Buffers

open Function

/-- Where `net_task` is: before its test of the queue, asleep, before `netq_shift`, before
`net_process`, before the test of `captured`; or it went on with no buffer. -/
inductive NetTask where
  | start
  | asleep
  | woken
  | busy (b : ℕ)
  | done (b : ℕ)
  | crashed
  deriving DecidableEq

/-- The state of the task that calls `udp_read`. -/
inductive TaskState where
  | running
  | exiting
  | other
  deriving DecidableEq

/-- The buffers, by number. `socks` has the lists of the sockets; `sleepers` and `takers` are the
calls of `udp_read` that sleep and that go on to take a datagram; `writers` are the calls of
`udp_write`. -/
structure State where
  next : ℕ
  frees : List ℕ
  netq : List ℕ
  captured : ℕ → Bool
  net : NetTask
  socks : ℕ → Option (List ℕ)
  sleepers : ℕ → List ℕ
  takers : ℕ → List ℕ
  writers : ℕ → Option ℕ

/-- `NETQ_MAX_ITEMS`. -/
def netqMaxItems : ℕ := 256

/-- `SOCK_MAX_BUFS`. -/
def sockMaxBufs : ℕ := 4

namespace State

/-- `sock->bufs`. -/
def bufs (s : State) (k : ℕ) : List ℕ := (s.socks k).getD []

/-- `net_buf_alloc` finds room in the queue and memory. -/
def HasRoom (s : State) (memory : Bool) : Prop := s.netq.length < netqMaxItems ∧ memory = true

instance (s : State) (memory : Bool) : Decidable (s.HasRoom memory) :=
  inferInstanceAs (Decidable (_ ∧ _))

/-- `net_buf_alloc`, when there is room: the next buffer. -/
def alloc (s : State) : State :=
  { s with next := s.next + 1, captured := update s.captured s.next false }

/-- `net_buf_free`. -/
def free (b : ℕ) (s : State) : State := { s with frees := s.frees ++ [b] }

/-- `wakeup(&netq)`. -/
def wakeNet (s : State) : State := if s.net = .asleep then { s with net := .woken } else s

/-- `ne2000_recv_frame`, with `netq_push`. -/
def recvFrame (memory : Bool) (s : State) : State :=
  if s.HasRoom memory then
    let b := s.next
    let s := s.alloc
    if netqMaxItems ≤ s.netq.length then s.wakeNet.free b
    else { s with netq := s.netq ++ [b] }.wakeNet
  else s

/-- The test at the top of the loop of `net_task`. -/
def netCheck (s : State) : State := { s with net := if s.netq = [] then .asleep else .woken }

/-- `netq_shift`. -/
def netqShift (s : State) : State :=
  match s.netq with
  | [] => { s with net := .crashed }
  | b :: l => { s with netq := l, net := .busy b }

/-- `udp_process` puts the buffer on the list of a socket, and wakes its readers. -/
def capture (b k : ℕ) (l : List ℕ) (s : State) : State :=
  { s with
    captured := update s.captured b true
    socks := update s.socks k (some (l ++ [b]))
    takers := update s.takers k (s.takers k ++ s.sleepers k)
    sleepers := update s.sleepers k []
    net := .done b }

/-- `net_process`, with the socket that matches the datagram, if any. -/
def netProcess (b : ℕ) (target : Option ℕ) (s : State) : State :=
  match target with
  | none => { s with net := .done b }
  | some k =>
    match s.socks k with
    | none => { s with net := .done b }
    | some l => if l.length < sockMaxBufs then s.capture b k l else { s with net := .done b }

/-- The test of `captured` in `net_task`. -/
def netTest (b : ℕ) (s : State) : State :=
  if s.captured b = true then { s with net := .start } else { s.free b with net := .start }

/-- `sock_alloc`. -/
def sockAlloc (k : ℕ) (s : State) : State := { s with socks := update s.socks k (some []) }

/-- `sock_free`: `list_close` frees what is on the list. -/
def sockFree (k : ℕ) (s : State) : State :=
  { s with frees := s.frees ++ s.bufs k, socks := update s.socks k none }

/-- A call of `udp_read` goes on to take a datagram. -/
def goOn (t k : ℕ) (s : State) : State := { s with takers := update s.takers k (s.takers k ++ [t]) }

/-- `udp_read` up to its sleep. -/
def readBegin (t k : ℕ) (state : TaskState) (s : State) : State :=
  if s.bufs k = [] then
    match state with
    | .exiting => s
    | .running => { s with sleepers := update s.sleepers k (s.sleepers k ++ [t]) }
    | .other => s.goOn t k
  else s.goOn t k

/-- A signal wakes a call of `udp_read`. -/
def readSignal (t k : ℕ) (s : State) : State :=
  { s.goOn t k with sleepers := update s.sleepers k ((s.sleepers k).erase t) }

/-- `udp_read` takes the first datagram; `list_del` frees its buffer. From an empty list it does
not return. -/
def readTake (t k : ℕ) (s : State) : State :=
  match s.socks k with
  | some (b :: l) =>
    { s.free b with socks := update s.socks k (some l),
                    takers := update s.takers k ((s.takers k).erase t) }
  | _ => s

/-- `udp_write` up to `eth_set_dmac`. -/
def writeBegin (t : ℕ) (memory : Bool) (s : State) : State :=
  if s.HasRoom memory then { s.alloc with writers := update s.writers t (some s.next) } else s

/-- `udp_write` after `eth_set_dmac`; `dmac` says that this returned 0. -/
def writeEnd (t b : ℕ) (dmac : Bool) (s : State) : State :=
  let s' := { s with writers := update s.writers t none }
  if dmac then s'.free b else s'

/-- `arp_resolve`, for an address that is not in the cache. `priv` says that there is a device. -/
def arpAsk (memory priv : Bool) (s : State) : State :=
  if s.HasRoom memory then
    if priv then s.alloc.free s.next else s.alloc
  else s

end State

/-- What can happen. -/
inductive Event where
  | recv (memory : Bool)
  | netCheck
  | netSignal
  | netShift
  | netProcess (b : ℕ) (target : Option ℕ)
  | netTest (b : ℕ)
  | sockAlloc (k : ℕ)
  | udpClose (k : ℕ)
  | readBegin (t k : ℕ) (state : TaskState)
  | readSignal (t k : ℕ)
  | readTake (t k : ℕ)
  | writeBegin (t : ℕ) (memory : Bool)
  | writeEnd (t b : ℕ) (dmac : Bool)
  | arpAsk (memory priv : Bool)

namespace Event

/-- The task is where the step begins. -/
def Enabled (s : State) : Event → Prop
  | netCheck => s.net = .start
  | netSignal => s.net = .asleep
  | netShift => s.net = .woken
  | netProcess b _ => s.net = .busy b
  | netTest b => s.net = .done b
  | sockAlloc k => s.socks k = none
  | udpClose k => (s.socks k).isSome
  | readBegin _ k _ => (s.socks k).isSome
  | readSignal t k => t ∈ s.sleepers k
  | readTake t k => t ∈ s.takers k
  | writeBegin t _ => s.writers t = none
  | writeEnd t b _ => s.writers t = some b
  | _ => True

def exec (s : State) : Event → State
  | recv memory => s.recvFrame memory
  | netCheck => s.netCheck
  | netSignal => { s with net := .woken }
  | netShift => s.netqShift
  | netProcess b target => s.netProcess b target
  | netTest b => s.netTest b
  | sockAlloc k => s.sockAlloc k
  | udpClose k => s.sockFree k
  | readBegin t k state => s.readBegin t k state
  | readSignal t k => s.readSignal t k
  | readTake t k => s.readTake t k
  | writeBegin t memory => s.writeBegin t memory
  | writeEnd t b dmac => s.writeEnd t b dmac
  | arpAsk memory priv => s.arpAsk memory priv

/-- `net_task` is woken only when there is a buffer. There are never more reads that go on than
datagrams. A buffer is not freed, and its socket not closed, between its capture and the test of
`net_task`; a socket is not closed while it is read. `eth_set_dmac` finds the address, and the
first interface has a device. -/
def Quiet (s : State) : Event → Prop
  | netSignal => s.netq ≠ []
  | netProcess _ (some k) =>
      (s.bufs k).length < sockMaxBufs →
        (s.takers k).length + (s.sleepers k).length ≤ (s.bufs k).length + 1
  | udpClose k => s.takers k = [] ∧ s.sleepers k = [] ∧ ∀ b ∈ s.bufs k, s.net ≠ .done b
  | readBegin _ k state => s.bufs k ≠ [] ∨ state = .other → (s.takers k).length < (s.bufs k).length
  | readSignal _ k => (s.takers k).length < (s.bufs k).length
  | readTake _ k => ∀ b, (s.bufs k).head? = some b → s.net ≠ .done b
  | writeEnd _ _ dmac => dmac = true
  | arpAsk memory priv => s.HasRoom memory → priv = true
  | _ => True

end Event

/-- A step of any run. -/
def Step (s s' : State) : Prop := ∃ e : Event, e.Enabled s ∧ s' = e.exec s

/-- A step of a quiet run. -/
def QuietStep (s s' : State) : Prop := ∃ e : Event, e.Enabled s ∧ e.Quiet s ∧ s' = e.exec s

def init : State :=
  ⟨0, [], [], fun _ => false, .start, fun _ => none, fun _ => [], fun _ => [], fun _ => none⟩

/-! ### Where the buffers are -/

/-- Where a buffer can be: freed, in the queue, on the list of a socket, with `net_task` or with a
call of `udp_write`. -/
inductive Place where
  | freed
  | netq
  | sock (k : ℕ)
  | net
  | call (t : ℕ)
  deriving DecidableEq

/-- What `net_task` has: a buffer that was not captured. -/
def State.netHas (s : State) : List ℕ :=
  match s.net with
  | .busy b => [b]
  | .done b => if s.captured b = true then [] else [b]
  | _ => []

def State.contents (s : State) : Place → List ℕ
  | .freed => s.frees
  | .netq => s.netq
  | .sock k => s.bufs k
  | .net => s.netHas
  | .call t => (s.writers t).toList

/-- What holds between the steps of a quiet run. -/
structure State.Sound (s : State) : Prop where
  custody : Custody s.contents s.next
  fresh : ∀ b, b ∈ s.netq ∨ s.net = .busy b → s.captured b = false
  done : ∀ b, s.net = .done b → s.captured b = true → ∃ k, b ∈ s.bufs k
  takers : ∀ k, (s.takers k).length ≤ (s.bufs k).length
  woken : s.net = .woken → s.netq ≠ []
  going : s.net ≠ .crashed

namespace State.Sound

variable {s : State} {b k t : ℕ} {l : List ℕ}

theorem net_lt (h : s.Sound) (hb : s.net = .done b) : b < s.next := by
  by_cases hc : s.captured b = true
  · obtain ⟨k, hk⟩ := h.done b hb hc
    exact h.custody.bound (.sock k) b hk
  · refine h.custody.bound .net b ?_
    show b ∈ s.netHas
    rw [State.netHas, hb]
    simp [hc]

/-- A new buffer that was not captured changes nothing that others have. -/
theorem netHas_alloc (h : s.Sound) : s.alloc.netHas = s.netHas := by
  unfold State.netHas
  show (match s.net with
    | .busy b => [b]
    | .done b => if update s.captured s.next false b = true then [] else [b]
    | _ => []) = _
  cases hn : s.net with
  | done b =>
    dsimp only
    rw [update_of_ne (Nat.ne_of_lt (h.net_lt hn))]
  | _ => rfl

theorem alloc_captured (hb : b < s.next) : s.alloc.captured b = s.captured b :=
    update_of_ne (Nat.ne_of_lt hb) _ _

theorem alloc_fresh (h : s.Sound) :
    ∀ b, b ∈ s.netq ∨ s.net = .busy b → s.alloc.captured b = false := by
  intro b hb
  have hlt : b < s.next := by
    rcases hb with hb | hb
    · exact h.custody.bound .netq b hb
    · refine h.custody.bound .net b ?_
      show b ∈ s.netHas
      rw [State.netHas, hb]
      exact List.mem_singleton_self b
  rw [alloc_captured hlt]
  exact h.fresh b hb

theorem alloc_done (h : s.Sound) :
    ∀ b, s.net = .done b → s.alloc.captured b = true → ∃ k, b ∈ s.bufs k := by
  intro b hb hc
  rw [alloc_captured (h.net_lt hb)] at hc
  exact h.done b hb hc

theorem wakeNet (h : s.Sound) (hq : s.netq ≠ []) : s.wakeNet.Sound := by
  unfold State.wakeNet
  split
  · rename_i hn
    refine ⟨h.custody.congr fun p => ?_, fun b hb => ?_, fun b hb => (by cases hb),
      h.takers, fun _ => hq, fun hc => (by cases hc)⟩
    · cases p with
      | net =>
        show [] = s.netHas
        rw [State.netHas, hn]
      | _ => rfl
    · rcases hb with hb | hb
      · exact h.fresh b (Or.inl hb)
      · cases hb
  · exact h

theorem recvFrame (h : s.Sound) (memory : Bool) : (s.recvFrame memory).Sound := by
  unfold State.recvFrame
  split
  · rename_i hroom
    have hfull : ¬netqMaxItems ≤ s.alloc.netq.length := Nat.not_le.mpr hroom.1
    dsimp only
    rw [if_neg hfull]
    refine wakeNet ⟨?_, ?_, h.alloc_done, h.takers, fun _ => by simp, h.going⟩ (by simp)
    · refine h.custody.make (p := .netq) rfl fun p hp => ?_
      cases p with
      | netq => exact absurd rfl hp
      | net => exact h.netHas_alloc
      | _ => rfl
    · rintro b (hb | hb)
      · rcases List.mem_append.mp hb with hb | hb
        · exact h.alloc_fresh b (Or.inl hb)
        · rw [List.mem_singleton.mp hb]
          exact update_self _ _ _
      · exact h.alloc_fresh b (Or.inr hb)
  · exact h

theorem netCheck (h : s.Sound) (hn : s.net = .start) : s.netCheck.Sound := by
  have hhas : s.netCheck.netHas = s.netHas := by
    rw [State.netHas, State.netHas, hn]
    show (match (if s.netq = [] then NetTask.asleep else .woken) with
      | .busy b => [b]
      | .done b => _
      | _ => []) = []
    split_ifs <;> rfl
  refine ⟨h.custody.congr fun p => ?_, ?_, ?_, h.takers, ?_, ?_⟩
  · cases p with
    | net => exact hhas
    | _ => rfl
  · rintro b (hb | hb)
    · exact h.fresh b (Or.inl hb)
    · unfold State.netCheck at hb
      dsimp only at hb
      split_ifs at hb
  · intro b hb
    unfold State.netCheck at hb
    dsimp only at hb
    split_ifs at hb
  · intro hb
    unfold State.netCheck at hb
    dsimp only at hb
    split_ifs at hb with hq
    exact hq
  · unfold State.netCheck
    dsimp only
    split_ifs <;> decide

theorem netqShift (h : s.Sound) (hn : s.net = .woken) : s.netqShift.Sound := by
  unfold State.netqShift
  cases hq : s.netq with
  | nil => exact absurd hq (h.woken hn)
  | cons b l =>
    refine ⟨?_, ?_, fun _ hb => (by cases hb),
      h.takers, fun hb => (by cases hb), fun hb => (by cases hb)⟩
    · refine h.custody.move (p := .netq) (q := .net) (l := [b]) (by decide) hq ?_ fun p hp hp' => ?_
      · show [b] = s.netHas ++ [b]
        rw [State.netHas, hn]
        rfl
      · cases p with
        | netq => exact absurd rfl hp
        | net => exact absurd rfl hp'
        | _ => rfl
    · rintro c (hc | hc)
      · exact h.fresh c (Or.inl (by rw [hq]; exact List.mem_cons_of_mem _ hc))
      · cases hc
        exact h.fresh b (Or.inl (by rw [hq]; exact List.mem_cons_self))

theorem netHas_busy (hn : s.net = .busy b) : s.netHas = [b] := by rw [State.netHas, hn]

/-- `net_process` without a capture. -/
theorem finish (h : s.Sound) (hn : s.net = .busy b) : State.Sound { s with net := .done b } := by
  have hc := h.fresh b (Or.inr hn)
  refine ⟨h.custody.congr fun p => ?_, ?_, ?_,
    h.takers, fun hb => (by cases hb), fun hb => (by cases hb)⟩
  · cases p with
    | net =>
      show (if s.captured b = true then [] else [b]) = s.netHas
      rw [netHas_busy hn, hc]
      rfl
    | _ => rfl
  · rintro c (hc | hc)
    · exact h.fresh c (Or.inl hc)
    · cases hc
  · intro c hdone hcap
    cases hdone
    rw [hc] at hcap
    cases hcap

theorem bufs_update_self (x : Option (List ℕ)) :
    State.bufs { s with socks := update s.socks k x } k = x.getD [] := by
  rw [State.bufs]
  dsimp only
  rw [update_self]

theorem bufs_update_of_ne {k' : ℕ} (hk : k' ≠ k) (x : Option (List ℕ)) :
    State.bufs { s with socks := update s.socks k x } k' = s.bufs k' := by
  rw [State.bufs, State.bufs]
  dsimp only
  rw [update_of_ne hk]

theorem capture (h : s.Sound) (hn : s.net = .busy b) (hk : s.socks k = some l)
    (hreads : (s.takers k).length + (s.sleepers k).length ≤ l.length + 1) :
    (s.capture b k l).Sound := by
  have hbufs : s.bufs k = l := by rw [State.bufs, hk]; rfl
  have hself : (s.capture b k l).bufs k = l ++ [b] := bufs_update_self (some (l ++ [b]))
  have hother : ∀ {k' : ℕ}, k' ≠ k → (s.capture b k l).bufs k' = s.bufs k' := fun hk' =>
    bufs_update_of_ne hk' _
  have hcap : (s.capture b k l).captured b = true := update_self _ _ _
  refine ⟨?_, ?_, ?_, ?_, fun hb => (by cases hb), fun hb => (by cases hb)⟩
  · refine h.custody.move (p := .net) (q := .sock k) (l := [b])
      (fun hp => by cases hp) ?_ ?_ fun p hp hp' => ?_
    · show s.netHas = [b] ++ (if (s.capture b k l).captured b = true then [] else [b])
      rw [netHas_busy hn, hcap]
      rfl
    · show (s.capture b k l).bufs k = s.bufs k ++ [b]
      rw [hself, hbufs]
    · cases p with
      | net => exact absurd rfl hp
      | sock k' => exact hother fun hk' => hp' (by rw [hk'])
      | _ => rfl
  · rintro c (hc | hc)
    · have hne : c ≠ b := by
        rintro rfl
        have hnet : c ∈ s.contents .net := by
          show c ∈ s.netHas
          rw [netHas_busy hn]
          exact List.mem_singleton_self c
        have := h.custody.apart .netq .net c hc hnet
        cases this
      exact (update_of_ne hne _ _).trans (h.fresh c (Or.inl hc))
    · cases hc
  · intro c hc _
    cases hc
    refine ⟨k, ?_⟩
    rw [hself]
    exact List.mem_append_right _ (List.mem_singleton_self _)
  · intro k'
    by_cases hk' : k' = k
    · subst hk'
      rw [hself]
      show (update s.takers k' (s.takers k' ++ s.sleepers k') k').length ≤ _
      rw [update_self, List.length_append, List.length_append]
      exact hreads
    · rw [hother hk']
      show (update s.takers k (s.takers k ++ s.sleepers k) k').length ≤ _
      rw [update_of_ne hk']
      exact h.takers k'

theorem netProcess (h : s.Sound) (target : Option ℕ) (hn : s.net = .busy b)
    (hq : (Event.netProcess b target).Quiet s) :
    (s.netProcess b target).Sound := by
  unfold State.netProcess
  cases target with
  | none => exact h.finish hn
  | some k =>
    dsimp only
    cases hk : s.socks k with
    | none => exact h.finish hn
    | some l =>
      have hbufs : s.bufs k = l := by rw [State.bufs, hk]; rfl
      change (s.bufs k).length < _ → _ ≤ (s.bufs k).length + 1 at hq
      rw [hbufs] at hq
      by_cases hl : l.length < sockMaxBufs
      · dsimp only
        rw [if_pos hl]
        exact h.capture hn hk (hq hl)
      · dsimp only
        rw [if_neg hl]
        exact h.finish hn

theorem netTest (h : s.Sound) (hn : s.net = .done b) : (s.netTest b).Sound := by
  unfold State.netTest
  split
  · rename_i hc
    refine ⟨h.custody.congr fun p => ?_, ?_, fun _ hb => (by cases hb),
      h.takers, fun hb => (by cases hb), fun hb => (by cases hb)⟩
    · cases p with
      | net =>
        show [] = s.netHas
        rw [State.netHas, hn]
        exact (if_pos hc).symm
      | _ => rfl
    · rintro c (hc | hc)
      · exact h.fresh c (Or.inl hc)
      · cases hc
  · rename_i hc
    refine ⟨?_, ?_, fun _ hb => (by cases hb),
      h.takers, fun hb => (by cases hb), fun hb => (by cases hb)⟩
    · refine h.custody.move (p := .net) (q := .freed) (l := [b]) (by decide) ?_ rfl
        fun p hp hp' => ?_
      · show s.netHas = [b] ++ []
        rw [State.netHas, hn]
        exact if_neg hc
      · cases p with
        | net => exact absurd rfl hp
        | freed => exact absurd rfl hp'
        | _ => rfl
    · rintro c (hc | hc)
      · exact h.fresh c (Or.inl hc)
      · cases hc

theorem sockAlloc (h : s.Sound) (hk : s.socks k = none) : (s.sockAlloc k).Sound := by
  have hbufs : ∀ k', (s.sockAlloc k).bufs k' = s.bufs k' := by
    intro k'
    by_cases hk' : k' = k
    · subst hk'
      rw [State.sockAlloc, bufs_update_self, State.bufs, hk]
      rfl
    · exact bufs_update_of_ne hk' _
  refine ⟨h.custody.congr fun p => ?_, h.fresh, fun b hb hc => ?_, fun k' => ?_, h.woken, h.going⟩
  · cases p with
    | sock k' => exact hbufs k'
    | _ => rfl
  · obtain ⟨k', hk'⟩ := h.done b hb hc
    exact ⟨k', by rwa [hbufs]⟩
  · rw [hbufs]
    exact h.takers k'

theorem sockFree (h : s.Sound) (hq : (Event.udpClose k).Quiet s) : (s.sockFree k).Sound := by
  obtain ⟨htakers, -, hnet⟩ := hq
  have hself : (s.sockFree k).bufs k = [] :=
    @bufs_update_self { s with frees := s.frees ++ s.bufs k } k none
  have hother : ∀ {k' : ℕ}, k' ≠ k → (s.sockFree k).bufs k' = s.bufs k' := fun hk' =>
    @bufs_update_of_ne { s with frees := s.frees ++ s.bufs k } k _ hk' none
  refine ⟨?_, h.fresh, fun b hb hc => ?_, fun k' => ?_, h.woken, h.going⟩
  · refine h.custody.move (p := .sock k) (q := .freed) (l := s.bufs k)
      (fun hp => by cases hp) ?_ rfl fun p hp hp' => ?_
    · show s.bufs k = s.bufs k ++ (s.sockFree k).bufs k
      rw [hself, List.append_nil]
    · cases p with
      | freed => exact absurd rfl hp'
      | sock k' => exact hother fun hk' => hp (by rw [hk'])
      | _ => rfl
  · obtain ⟨k', hk'⟩ := h.done b hb hc
    have hne : k' ≠ k := by
      rintro rfl
      exact hnet b hk' hb
    exact ⟨k', by rwa [hother hne]⟩
  · by_cases hk' : k' = k
    · subst hk'
      show (s.takers k').length ≤ _
      rw [htakers]
      exact Nat.zero_le _
    · rw [hother hk']
      exact h.takers k'

theorem goOn (h : s.Sound) (hroom : (s.takers k).length < (s.bufs k).length) :
    (s.goOn t k).Sound := by
  refine ⟨h.custody, h.fresh, h.done, fun k' => ?_, h.woken, h.going⟩
  show (update s.takers k (s.takers k ++ [t]) k').length ≤ (s.bufs k').length
  by_cases hk' : k' = k
  · subst hk'
    rw [update_self, List.length_append]
    exact hroom
  · rw [update_of_ne hk']
    exact h.takers k'

theorem readBegin (h : s.Sound) {state : TaskState} (hq : (Event.readBegin t k state).Quiet s) :
    (s.readBegin t k state).Sound := by
  unfold State.readBegin
  split
  · cases state with
    | exiting => exact h
    | running => exact ⟨h.custody, h.fresh, h.done, h.takers, h.woken, h.going⟩
    | other => exact h.goOn (hq (Or.inr rfl))
  · rename_i hne
    exact h.goOn (hq (Or.inl hne))

theorem readSignal (h : s.Sound) (hq : (Event.readSignal t k).Quiet s) :
    (s.readSignal t k).Sound := by
  have hgo := @goOn s k t h hq
  exact ⟨hgo.custody, hgo.fresh, hgo.done, hgo.takers, hgo.woken, hgo.going⟩

/-- `udp_read` takes the first datagram of a list that has one. -/
theorem take (h : s.Sound) (ht : t ∈ s.takers k) (hk : s.socks k = some (b :: l))
    (hnet : s.net ≠ .done b) :
    State.Sound { s.free b with socks := update s.socks k (some l),
                                takers := update s.takers k ((s.takers k).erase t) } := by
  have hbufs : s.bufs k = b :: l := by rw [State.bufs, hk]; rfl
  have hself : State.bufs { s.free b with socks := update s.socks k (some l) } k = l :=
    @bufs_update_self (s.free b) k (some l)
  have hother : ∀ {k' : ℕ}, k' ≠ k →
    State.bufs { s.free b with socks := update s.socks k (some l) } k' = s.bufs k' :=
    fun hk' => @bufs_update_of_ne (s.free b) k _ hk' (some l)
  refine ⟨?_, h.fresh, fun c hc hcap => ?_, fun k' => ?_, h.woken, h.going⟩
  · refine h.custody.move (p := .sock k) (q := .freed) (l := [b])
      (fun hp => by cases hp) ?_ rfl fun p hp hp' => ?_
    · show s.bufs k = [b] ++ State.bufs { s.free b with socks := update s.socks k (some l) } k
      rw [hself, hbufs]
      rfl
    · cases p with
      | freed => exact absurd rfl hp'
      | sock k' => exact hother fun hk' => hp (by rw [hk'])
      | _ => rfl
  · obtain ⟨k', hk'⟩ := h.done c hc hcap
    refine ⟨k', ?_⟩
    show c ∈ State.bufs { s.free b with socks := update s.socks k (some l) } k'
    by_cases hne : k' = k
    · subst hne
      rw [hbufs] at hk'
      rw [hself]
      rcases List.mem_cons.mp hk' with rfl | hk'
      · exact absurd hc hnet
      · exact hk'
    · rwa [hother hne]
  · show (update s.takers k ((s.takers k).erase t) k').length ≤
      (State.bufs { s.free b with socks := update s.socks k (some l) } k').length
    by_cases hne : k' = k
    · subst hne
      have := h.takers k'
      rw [hbufs, List.length_cons] at this
      rw [update_self, hself, List.length_erase_of_mem ht]
      omega
    · rw [update_of_ne hne, hother hne]
      exact h.takers k'

theorem readTake (h : s.Sound) (ht : t ∈ s.takers k) (hq : (Event.readTake t k).Quiet s) :
    (s.readTake t k).Sound := by
  unfold State.readTake
  rcases hk : s.socks k with _ | ⟨_ | ⟨b, l⟩⟩
  · exact h
  · exact h
  · refine h.take ht hk (hq b ?_)
    rw [State.bufs, hk]
    rfl

theorem writeBegin (h : s.Sound) {memory : Bool} (ht : s.writers t = none) :
    (s.writeBegin t memory).Sound := by
  unfold State.writeBegin
  split
  · refine ⟨?_, h.alloc_fresh, h.alloc_done, h.takers, h.woken, h.going⟩
    refine h.custody.make (p := .call t) ?_ fun p hp => ?_
    · show (update s.writers t (some s.next) t).toList = (s.writers t).toList ++ [s.next]
      rw [update_self, ht]
      rfl
    · cases p with
      | net => exact h.netHas_alloc
      | call t' =>
        show (update s.writers t (some s.next) t').toList = (s.writers t').toList
        rw [update_of_ne fun he => hp (by rw [he])]
      | _ => rfl
  · exact h

theorem writeEnd (h : s.Sound) {dmac : Bool} (ht : s.writers t = some b)
    (hq : (Event.writeEnd t b dmac).Quiet s) :
    (s.writeEnd t b dmac).Sound := by
  change dmac = true at hq
  subst hq
  refine ⟨?_, h.fresh, h.done, h.takers, h.woken, h.going⟩
  refine h.custody.move (p := .call t) (q := .freed) (l := [b])
    (fun hp => by cases hp) ?_ rfl fun p hp hp' => ?_
  · show (s.writers t).toList = [b] ++ (update s.writers t none t).toList
    rw [update_self, ht]
    rfl
  · cases p with
    | freed => exact absurd rfl hp'
    | call t' =>
      show (update s.writers t none t').toList = (s.writers t').toList
      rw [update_of_ne fun he => hp (by rw [he])]
    | _ => rfl

theorem arpAsk (h : s.Sound) {memory priv : Bool} (hq : (Event.arpAsk memory priv).Quiet s) :
    (s.arpAsk memory priv).Sound := by
  unfold State.arpAsk
  split
  · rename_i hroom
    rw [if_pos (hq hroom)]
    refine ⟨?_, h.alloc_fresh, h.alloc_done, h.takers, h.woken, h.going⟩
    refine h.custody.make (p := .freed) rfl fun p hp => ?_
    cases p with
    | freed => exact absurd rfl hp
    | net => exact h.netHas_alloc
    | _ => rfl
  · exact h

theorem netSignal (h : s.Sound) (hn : s.net = .asleep) (hq : s.netq ≠ []) :
    State.Sound { s with net := .woken } := by
  have hwake := h.wakeNet hq
  unfold State.wakeNet at hwake
  rwa [if_pos hn] at hwake

end State.Sound

/-- **A step of a quiet run** keeps the books. -/
theorem Event.exec_sound {s : State} (h : s.Sound) (e : Event) (he : e.Enabled s) (hq : e.Quiet s) :
    (e.exec s).Sound := by
  cases e with
  | recv memory => exact h.recvFrame memory
  | netCheck => exact h.netCheck he
  | netSignal => exact h.netSignal he hq
  | netShift => exact h.netqShift he
  | netProcess b target => exact h.netProcess target he hq
  | netTest b => exact h.netTest he
  | sockAlloc k => exact h.sockAlloc he
  | udpClose k => exact h.sockFree hq
  | readBegin t k state => exact h.readBegin hq
  | readSignal t k => exact h.readSignal hq
  | readTake t k => exact h.readTake he hq
  | writeBegin t memory => exact h.writeBegin he
  | writeEnd t b dmac => exact h.writeEnd he hq
  | arpAsk memory priv => exact h.arpAsk hq

theorem init_sound : init.Sound where
  custody := Custody.empty fun p => by cases p <;> rfl
  fresh _ _ := rfl
  done _ hb := by cases hb
  takers _ := Nat.zero_le _
  woken hb := by cases hb
  going hb := by cases hb

/-- **Buffers are freed once** in every quiet run: each buffer lies in one place, once, and what
is freed is one of the places; `net_task` has a buffer to process, and reads no flag of a buffer
that was freed; and a call of `udp_read` that goes on finds a datagram. -/
theorem buffers_accounted (s : State) (h : Reach QuietStep init s) :
    Custody s.contents s.next ∧ s.net ≠ .crashed ∧
      (∀ b, s.net = .busy b ∨ s.net = .done b → b ∉ s.frees) ∧
      ∀ t k, t ∈ s.takers k → ∃ b l, s.socks k = some (b :: l) := by
  have hs : s.Sound := by
    refine Reach.invariant (I := State.Sound) ?_ init_sound h
    rintro r r' hr ⟨e, he, hq, rfl⟩
    exact e.exec_sound hr he hq
  refine ⟨hs.custody, hs.going, ?_, ?_⟩
  · intro b hb hf
    have hplace : ∃ p, p ≠ Place.freed ∧ b ∈ s.contents p := by
      rcases hb with hb | hb
      · exact ⟨.net, by decide, by
          show b ∈ s.netHas
          rw [State.Sound.netHas_busy hb]
          exact List.mem_singleton_self b⟩
      · by_cases hc : s.captured b = true
        · obtain ⟨k, hk⟩ := hs.done b hb hc
          exact ⟨.sock k, fun hp => (by cases hp), hk⟩
        · refine ⟨.net, by decide, ?_⟩
          show b ∈ s.netHas
          rw [State.netHas, hb]
          simp [hc]
    obtain ⟨p, hp, hbp⟩ := hplace
    exact hp (hs.custody.apart p .freed b hbp hf)
  · intro t k ht
    have hlen := hs.takers k
    have hpos := List.length_pos_of_mem ht
    rcases hk : s.socks k with _ | ⟨_ | ⟨b, l⟩⟩
    · rw [State.bufs, hk] at hlen
      exact absurd (Nat.lt_of_lt_of_le hpos hlen) (Nat.lt_irrefl 0)
    · rw [State.bufs, hk] at hlen
      exact absurd (Nat.lt_of_lt_of_le hpos hlen) (Nat.lt_irrefl 0)
    · exact ⟨b, l, rfl⟩

/-- A frame is received and processed, and no socket matches. -/
def dropped : State :=
  (Event.netTest 0).exec
    ((Event.netProcess 0 none).exec
      (Event.netShift.exec (Event.netCheck.exec ((Event.recv true).exec init))))

theorem buffers_accounted_dropped :
    dropped.frees = [0] ∧ Custody dropped.contents dropped.next := by
  refine ⟨rfl, (buffers_accounted dropped ?_).1⟩
  have h1 : Reach QuietStep init ((Event.recv true).exec init) :=
    .tail .refl ⟨.recv true, trivial, trivial, rfl⟩
  exact (((h1.tail ⟨.netCheck, rfl, trivial, rfl⟩).tail ⟨.netShift, rfl, trivial, rfl⟩).tail
    ⟨.netProcess 0 none, rfl, trivial, rfl⟩).tail ⟨.netTest 0, rfl, trivial, rfl⟩

/-- `udp_write` to an address without a route: the buffer is nowhere. -/
theorem buffer_lost : ∃ s, Reach Step init s ∧ 0 < s.next ∧ ∀ p, 0 ∉ s.contents p := by
  refine ⟨(Event.writeEnd 0 0 false).exec ((Event.writeBegin 0 true).exec init),
    ?_, by decide, fun p => ?_⟩
  · have h1 : Reach Step init ((Event.writeBegin 0 true).exec init) :=
      .tail .refl ⟨.writeBegin 0 true, rfl, rfl⟩
    exact h1.tail ⟨.writeEnd 0 0 false, rfl, rfl⟩
  · cases p with
    | call t =>
      show 0 ∉ (update (update (fun _ => none) 0 (some 0)) 0 none t : Option ℕ).toList
      by_cases ht : t = 0
      · subst ht
        decide
      · rw [update_of_ne ht, update_of_ne ht]
        decide
    | _ => exact List.not_mem_nil

end Cosiris.Buffers
