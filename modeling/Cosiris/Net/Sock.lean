import Cosiris.Kernel.Bmap
import Cosiris.Lib.Runs
import Mathlib.Data.Int.Notation
import Mathlib.Data.List.Nodup

/-!
# Sockets and their addresses

The table of sockets of `sock.c`, with `udp_connect` and `udp_close` of `udp.c`. A socket is known
by the number of its place in memory; `route` says which interface leads to an address, if there
is one.

`sock_set_loc_addr` refuses an address if a socket of the same protocol has its port and its IP,
or any IP. It does not look the other way: a socket may be given any IP at a port at which another
has an IP of its own. -/

namespace Cosiris.Sock

open Function

/-- `sock_addr_t`. -/
structure Addr where
  ip : UInt32
  port : UInt16
  deriving DecidableEq

/-- `sock_t`. -/
structure Socket where
  proto : UInt8
  loc : Addr
  rem : Addr
  connected : Bool
  netif : Option ℕ
  deriving DecidableEq

/-- `S_UDP`. -/
def sUdp : UInt8 := 0

/-- `S_TCP`. -/
def sTcp : UInt8 := 1

/-- `MAX_SOCKS`. -/
def maxSocks : ℕ := 32

/-- `MIN_PORT`. -/
def minPort : ℕ := 32768

/-- `MAX_PORTS`. -/
def maxPorts : ℕ := 1024

/-- The table of sockets and the bitmaps of ports. -/
structure Table where
  socks : List ℕ
  sock : ℕ → Socket
  next : ℕ
  udpPorts : Bmap
  tcpPorts : Bmap

/-- `sock_init`. -/
def init : Table :=
  ⟨[], fun _ => ⟨0, ⟨0, 0⟩, ⟨0, 0⟩, false, none⟩, 0, .alloc maxPorts, .alloc maxPorts⟩

/-- Change a socket. -/
def Table.change (t : Table) (i : ℕ) (f : Socket → Socket) : Table :=
  { t with sock := update t.sock i (f (t.sock i)) }

/-- `sock_alloc`: the socket, or `NULL`. -/
def sockAlloc (proto : UInt8) (t : Table) : Option ℕ × Table :=
  if t.socks.length = maxSocks then (none, t)
  else
    (some t.next,
      { t with
        socks := t.socks ++ [t.next]
        sock := update t.sock t.next ⟨proto, ⟨0, 0⟩, ⟨0, 0⟩, false, none⟩
        next := t.next + 1 })

/-- `sock_free`. -/
def sockFree (i : ℕ) (t : Table) : Table := { t with socks := t.socks.erase i }

/-- A socket of the table is in the way of an address for socket `i`. -/
def Table.Taken (t : Table) (i : ℕ) (addr : Addr) : Prop :=
  ∃ j ∈ t.socks, (t.sock j).proto = (t.sock i).proto ∧ (t.sock j).loc.port = addr.port ∧
    ((t.sock j).loc.ip = addr.ip ∨ (t.sock j).loc.ip = 0)

instance (t : Table) (i : ℕ) (addr : Addr) : Decidable (t.Taken i addr) :=
  inferInstanceAs
    (Decidable (∃ j ∈ t.socks, (t.sock j).proto = (t.sock i).proto ∧
      (t.sock j).loc.port = addr.port ∧
    ((t.sock j).loc.ip = addr.ip ∨ (t.sock j).loc.ip = 0)))

/-- `sock_set_loc_addr`. -/
def sockSetLocAddr (i : ℕ) (addr : Addr) (t : Table) : ℤ × Table :=
  if t.Taken i addr then (-1, t) else (0, t.change i fun s => { s with loc := addr })

/-- `sock_set_rem_addr`. -/
def sockSetRemAddr (route : UInt32 → Option ℕ) (i : ℕ) (addr : Addr) (t : Table) : ℤ × Table :=
  match (t.sock i).netif.or (route addr.ip) with
  | none => (-1, t)
  | some netif => (0, t.change i fun s => { s with rem := addr, netif := some netif })

/-- `port_alloc`: the port, or -1. -/
def portAlloc (proto : UInt8) (t : Table) : Option ℕ × Table :=
  if proto = sUdp then
    match t.udpPorts.getFree with
    | none => (none, t)
    | some (bit, b) => (some (bit + minPort), { t with udpPorts := b })
  else if proto = sTcp then
    match t.tcpPorts.getFree with
    | none => (none, t)
    | some (bit, b) => (some (bit + minPort), { t with tcpPorts := b })
  else (none, t)

/-- `sock_bind`. -/
def sockBind (i : ℕ) (addr : Addr) (t : Table) : ℤ × Table :=
  if addr.port = 0 then
    match portAlloc (t.sock i).proto t with
    | (none, t) => (-1, t)
    | (some port, t) => sockSetLocAddr i ⟨addr.ip, .ofNat port⟩ t
  else sockSetLocAddr i addr t

/-- What `port_alloc` returns, as a number of 16 bits. -/
def toPort : Option ℕ → UInt16
  | none => 0xFFFF
  | some port => .ofNat port

/-- `udp_connect`, once the socket has a port. -/
def connectTo (route : UInt32 → Option ℕ) (i : ℕ) (addr : Addr) (t : Table) : ℤ × Table :=
  (0, (sockSetRemAddr route i addr t).2.change i fun s => { s with connected := true })

/-- `udp_connect`. -/
def udpConnect (route : UInt32 → Option ℕ) (i : ℕ) (addr : Addr) (t : Table) : ℤ × Table :=
  if (t.sock i).loc.port = 0 then
    let r := portAlloc sUdp t
    let r := sockSetLocAddr i ⟨0, toPort r.1⟩ r.2
    if r.1 < 0 then (-1, r.2) else connectTo route i addr r.2
  else connectTo route i addr t

/-- `udp_close`. -/
def udpClose (i : ℕ) (t : Table) : ℤ × Table := (0, sockFree i t)

/-! ### Runs -/

/-- A call on a socket. -/
inductive Op where
  | alloc (proto : UInt8)
  | bind (i : ℕ) (addr : Addr)
  | connect (i : ℕ) (addr : Addr)
  | free (i : ℕ)

/-- The call is for a socket of the table. -/
def Op.Live (t : Table) : Op → Prop
  | alloc _ => True
  | bind i _ | connect i _ | free i => i ∈ t.socks

/-- The table after the call. -/
def Op.exec (route : UInt32 → Option ℕ) : Op → Table → Table
  | alloc proto, t => (sockAlloc proto t).2
  | bind i addr, t => (sockBind i addr t).2
  | connect i addr, t => (udpConnect route i addr t).2
  | free i, t => (udpClose i t).2

/-- The sockets of the table are different, and there are at most `MAX_SOCKS`. -/
structure Table.Sound (t : Table) : Prop where
  nodup : t.socks.Nodup
  lt_next : ∀ i ∈ t.socks, i < t.next
  length_le : t.socks.length ≤ maxSocks

section

variable {t : Table} {i j : ℕ} {addr : Addr} {proto : UInt8} {route : UInt32 → Option ℕ}

@[simp] theorem Table.change_sock_self (f : Socket → Socket) :
    (t.change i f).sock i = f (t.sock i) :=
    update_self ..

theorem Table.change_sock_ne (f : Socket → Socket) (h : j ≠ i) : (t.change i f).sock j = t.sock j :=
    update_of_ne h ..

/-- Changes of a table that leave the protocols and the local addresses of sockets as they are. -/
structure Table.SameLocal (t t' : Table) : Prop where
  socks : t'.socks = t.socks
  next : t'.next = t.next
  proto : ∀ j, (t'.sock j).proto = (t.sock j).proto
  loc : ∀ j, (t'.sock j).loc = (t.sock j).loc

theorem Table.SameLocal.refl (t : Table) : t.SameLocal t := ⟨rfl, rfl, fun _ => rfl, fun _ => rfl⟩

theorem Table.SameLocal.trans {t₁ t₂ t₃ : Table} (h : t₁.SameLocal t₂) (h' : t₂.SameLocal t₃) :
    t₁.SameLocal t₃ :=
  ⟨h'.socks.trans h.socks, h'.next.trans h.next, fun j => (h'.proto j).trans (h.proto j), fun j =>
    (h'.loc j).trans (h.loc j)⟩

theorem Table.SameLocal.change {f : Socket → Socket} (hp : ∀ s, (f s).proto = s.proto)
    (hl : ∀ s, (f s).loc = s.loc) :
    t.SameLocal (t.change i f) := by
  have key : ∀ j, ((t.change i f).sock j).proto = (t.sock j).proto ∧
    ((t.change i f).sock j).loc = (t.sock j).loc := by
    intro j
    by_cases h : j = i
    · subst h
      rw [Table.change_sock_self]
      exact ⟨hp _, hl _⟩
    · rw [Table.change_sock_ne f h]
      exact ⟨rfl, rfl⟩
  exact ⟨rfl, rfl, fun j => (key j).1, fun j => (key j).2⟩

theorem connectTo_sameLocal (route : UInt32 → Option ℕ) (i : ℕ) (addr : Addr) (t : Table) :
    t.SameLocal (connectTo route i addr t).2 := by
  have hrem : t.SameLocal (sockSetRemAddr route i addr t).2 := by
    unfold sockSetRemAddr
    split
    · exact .refl t
    · dsimp only
      exact .change (fun _ => rfl) fun _ => rfl
  unfold connectTo
  dsimp only
  exact hrem.trans (.change (fun _ => rfl) fun _ => rfl)

theorem portAlloc_sameLocal (proto : UInt8) (t : Table) : t.SameLocal (portAlloc proto t).2 := by
  unfold portAlloc
  split_ifs
  · cases t.udpPorts.getFree with
    | none => exact .refl t
    | some r => exact ⟨rfl, rfl, fun _ => rfl, fun _ => rfl⟩
  · cases t.tcpPorts.getFree with
    | none => exact .refl t
    | some r => exact ⟨rfl, rfl, fun _ => rfl, fun _ => rfl⟩
  · exact .refl t

theorem Table.SameLocal.sound {t' : Table} (h : t.SameLocal t') (ht : t.Sound) : t'.Sound :=
  ⟨h.socks ▸ ht.nodup, by rw [h.socks, h.next]; exact ht.lt_next, h.socks ▸ ht.length_le⟩

theorem Table.Sound.setLocAddr (ht : t.Sound) (i : ℕ) (addr : Addr) :
    (sockSetLocAddr i addr t).2.Sound := by
  unfold sockSetLocAddr
  split_ifs
  · exact ht
  · exact ⟨ht.nodup, ht.lt_next, ht.length_le⟩

theorem Table.Sound.alloc (ht : t.Sound) (proto : UInt8) : (sockAlloc proto t).2.Sound := by
  unfold sockAlloc
  split_ifs with hfull
  · exact ht
  · have hfresh : t.next ∉ t.socks := fun h => Nat.lt_irrefl _ (ht.lt_next _ h)
    have hle := ht.length_le
    refine ⟨?_, fun i hi => ?_, ?_⟩
    · exact List.Nodup.append ht.nodup (List.nodup_singleton _) (List.disjoint_singleton.mpr hfresh)
    · rcases List.mem_append.mp hi with hi | hi
      · exact Nat.lt_succ_of_lt (ht.lt_next i hi)
      · rw [List.mem_singleton.mp hi]
        exact Nat.lt_succ_self _
    · rw [List.length_append, List.length_singleton]
      omega

theorem Table.Sound.free (ht : t.Sound) : (sockFree i t).Sound :=
  ⟨ht.nodup.erase i, fun j hj => ht.lt_next j (List.mem_of_mem_erase hj),
    Nat.le_trans (List.length_erase_le ..) ht.length_le⟩

/-! ### Addresses that overlap -/

/-- The IPs are the same, or one of them is any. -/
def Overlap (ip ip' : UInt32) : Prop := ip = ip' ∨ ip = 0 ∨ ip' = 0

/-- No two sockets of a protocol have the same port and overlapping IPs. -/
def Table.Apart (t : Table) : Prop :=
  ∀ i ∈ t.socks, ∀ j ∈ t.socks, i ≠ j → (t.sock i).proto = (t.sock j).proto →
    (t.sock i).loc.port = (t.sock j).loc.port → (t.sock i).loc.port ≠ 0 →
      ¬Overlap (t.sock i).loc.ip (t.sock j).loc.ip

/-- The address that a call gives to `sock_set_loc_addr`. -/
def Op.sets (t : Table) : Op → Option (ℕ × Addr)
  | alloc _ | free _ => none
  | bind i addr =>
    if addr.port = 0 then (portAlloc (t.sock i).proto t).1.map fun port =>
      (i, ⟨addr.ip, .ofNat port⟩) else some (i, addr)
  | connect i _ =>
      if (t.sock i).loc.port = 0 then some (i, ⟨0, toPort (portAlloc sUdp t).1⟩) else none

/-- A call that sets the address of a socket to any IP does so at a port at which no other socket
of the protocol has an IP of its own. -/
def Op.Plain (t : Table) (op : Op) : Prop :=
  ∀ i addr, op.sets t = some (i, addr) → addr.ip = 0 →
    ∀ j ∈ t.socks, j ≠ i → (t.sock j).proto = (t.sock i).proto → (t.sock j).loc.port = addr.port →
      (t.sock j).loc.ip = 0

theorem Table.SameLocal.apart {t' : Table} (h : t.SameLocal t') (ht : t.Apart) : t'.Apart := by
  intro i hi j hj
  rw [h.socks] at hi hj
  rw [h.proto, h.proto, h.loc, h.loc]
  exact ht i hi j hj

/-- No socket is in the way if the test finds none, and the address is one IP or no other socket
has one at the port. -/
theorem Table.Apart.setLocAddr (ht : t.Apart)
    (hany : addr.ip = 0 → ∀ j ∈ t.socks, j ≠ i → (t.sock j).proto = (t.sock i).proto →
      (t.sock j).loc.port = addr.port →
      (t.sock j).loc.ip = 0) : (sockSetLocAddr i addr t).2.Apart := by
  unfold sockSetLocAddr
  split_ifs with htaken
  · exact ht
  · have key : ∀ j ∈ t.socks, j ≠ i → (t.sock j).proto = (t.sock i).proto →
      (t.sock j).loc.port = addr.port →
        ¬Overlap addr.ip (t.sock j).loc.ip := by
      intro j hj hji hproto hport hover
      have hfree : ¬((t.sock j).loc.ip = addr.ip ∨ (t.sock j).loc.ip = 0) := fun h =>
        htaken ⟨j, hj, hproto, hport, h⟩
      rcases hover with h | h | h
      · exact hfree (Or.inl h.symm)
      · exact hfree (Or.inr (hany h j hj hji hproto hport))
      · exact hfree (Or.inr h)
    intro k hk j hj hkj
    dsimp only
    by_cases hki : k = i
    · subst hki
      rw [Table.change_sock_self, Table.change_sock_ne _ (Ne.symm hkj)]
      exact fun hproto hport _ => key j hj (Ne.symm hkj) hproto.symm hport.symm
    · rw [Table.change_sock_ne _ hki]
      by_cases hji : j = i
      · subst hji
        rw [Table.change_sock_self]
        refine fun hproto hport _ hover => key k hk hki hproto hport ?_
        exact hover.elim (fun h => Or.inl h.symm) fun h => Or.inr h.symm
      · rw [Table.change_sock_ne _ hji]
        exact ht k hk j hj hkj

theorem Op.exec_sound (op : Op) (ht : t.Sound) : (op.exec route t).Sound := by
  cases op with
  | alloc proto => exact ht.alloc proto
  | bind i addr =>
    show (sockBind i addr t).2.Sound
    have hs := portAlloc_sameLocal (t.sock i).proto t
    unfold sockBind
    split_ifs
    · rcases hr : portAlloc (t.sock i).proto t with ⟨_ | port, t'⟩
      · rw [hr] at hs
        exact hs.sound ht
      · rw [hr] at hs
        exact (hs.sound ht).setLocAddr _ _
    · exact ht.setLocAddr _ _
  | connect i addr =>
    show (udpConnect route i addr t).2.Sound
    have hset :=
      ((portAlloc_sameLocal sUdp t).sound ht).setLocAddr i ⟨0, toPort (portAlloc sUdp t).1⟩
    unfold udpConnect
    dsimp only
    split_ifs
    · exact hset
    · exact (connectTo_sameLocal ..).sound hset
    · exact (connectTo_sameLocal ..).sound ht
  | free i => exact ht.free

theorem Op.exec_apart {op : Op} (ht : t.Sound) (ha : t.Apart) (hp : op.Plain t) :
    (op.exec route t).Apart := by
  cases op with
  | alloc proto =>
    show (sockAlloc proto t).2.Apart
    unfold sockAlloc
    split_ifs
    · exact ha
    · have hne : ∀ k ∈ t.socks, k ≠ t.next := fun k hk he => Nat.lt_irrefl _ (he ▸ ht.lt_next k hk)
      intro k hk j hj hkj
      dsimp only at hk hj ⊢
      rcases List.mem_append.mp hk with hk | hk
      · rw [update_of_ne (hne k hk)]
        rcases List.mem_append.mp hj with hj | hj
        · rw [update_of_ne (hne j hj)]
          exact ha k hk j hj hkj
        · rw [List.mem_singleton.mp hj, update_self]
          exact fun _ hport h0 => absurd hport h0
      · rw [List.mem_singleton.mp hk, update_self]
        exact fun _ _ h0 => absurd rfl h0
  | bind i addr =>
    show (sockBind i addr t).2.Apart
    have hs := portAlloc_sameLocal (t.sock i).proto t
    unfold sockBind
    split_ifs with h0
    · rcases hr : portAlloc (t.sock i).proto t with ⟨_ | port, t'⟩
      · rw [hr] at hs
        exact hs.apart ha
      · rw [hr] at hs
        refine (hs.apart ha).setLocAddr fun hany j hj hji => ?_
        rw [hs.socks] at hj
        rw [hs.proto, hs.proto, hs.loc]
        refine hp i ⟨addr.ip, .ofNat port⟩ ?_ hany j hj hji
        rw [Op.sets, if_pos h0, hr]
        rfl
    · exact ha.setLocAddr fun hany => hp i addr (by rw [Op.sets, if_neg h0]) hany
  | connect i addr =>
    show (udpConnect route i addr t).2.Apart
    have hs := portAlloc_sameLocal sUdp t
    unfold udpConnect
    dsimp only
    by_cases h0 : (t.sock i).loc.port = 0
    · have hset :
        (sockSetLocAddr i ⟨0, toPort (portAlloc sUdp t).1⟩ (portAlloc sUdp t).2).2.Apart := by
        refine (hs.apart ha).setLocAddr fun hany j hj hji => ?_
        rw [hs.socks] at hj
        rw [hs.proto, hs.proto, hs.loc]
        exact hp i ⟨0, toPort (portAlloc sUdp t).1⟩ (by rw [Op.sets, if_pos h0]) hany j hj hji
      rw [if_pos h0]
      split_ifs
      · exact hset
      · exact (connectTo_sameLocal ..).apart hset
    · rw [if_neg h0]
      exact (connectTo_sameLocal ..).apart ha
  | free i => exact fun k hk j hj => ha k (List.mem_of_mem_erase hk) j (List.mem_of_mem_erase hj)

end

/-- A step of a run: a call on a socket of the table. -/
def Step (route : UInt32 → Option ℕ) (t t' : Table) : Prop :=
  ∃ op : Op, op.Live t ∧ t' = op.exec route t

/-- A step of a run in which all calls are plain. -/
def PlainStep (route : UInt32 → Option ℕ) (t t' : Table) : Prop :=
  ∃ op : Op, op.Live t ∧ op.Plain t ∧ t' = op.exec route t

theorem init_sound : init.Sound := ⟨List.nodup_nil, fun _ h => (by cases h), Nat.zero_le _⟩

/-- **Binding**: in every run of plain calls, whatever routes there are, no two sockets of a
protocol have the same port and overlapping IPs. -/
theorem binds_apart (route : UInt32 → Option ℕ) (t : Table) (h : Reach (PlainStep route) init t) :
    t.Apart := by
  have hinv : t.Sound ∧ t.Apart := by
    refine Reach.invariant (I := fun t => t.Sound ∧ t.Apart) ?_ ⟨init_sound,
      fun _ h => (by cases h)⟩ h
    rintro s s' ⟨hs, ha⟩ ⟨op, -, hp, rfl⟩
    exact ⟨op.exec_sound hs, op.exec_apart hs ha hp⟩
  exact hinv.2

/-- Two UDP sockets, the first with IP 1 at port 5000. -/
def bound : Table :=
  (Op.bind 0 ⟨1, 5000⟩).exec (fun _ => none) ((Op.alloc sUdp).exec (fun _ => none)
  ((Op.alloc sUdp).exec (fun _ => none) init))

/-- The second may be given IP 2 at the same port. -/
theorem binds_apart_pair :
    let t := (Op.bind 1 ⟨2, 5000⟩).exec (fun _ => none) bound
    ((t.sock 0).loc.port = 5000 ∧ (t.sock 1).loc.port = 5000) ∧ t.Apart := by
  refine ⟨by decide, binds_apart (fun _ => none) _ ?_⟩
  have hplain : ∀ (t : Table) (i : ℕ) (ip : UInt32), ip ≠ 0 → (Op.bind i ⟨ip, 5000⟩).Plain t := by
    intro t i ip hip k addr hset hany
    rw [Op.sets, if_neg (show ¬(5000 : UInt16) = 0 by decide)] at hset
    cases hset
    exact absurd hany hip
  have halloc : ∀ t : Table, (Op.alloc sUdp).Plain t := fun t i addr h => by cases h
  refine ((((Relation.ReflTransGen.refl.tail ⟨.alloc sUdp, trivial, halloc _, rfl⟩).tail
    ⟨.alloc sUdp, trivial, halloc _, rfl⟩).tail ⟨.bind 0 ⟨1, 5000⟩, ?_, hplain _ _ _ (by decide),
      rfl⟩).tail
    ⟨.bind 1 ⟨2, 5000⟩, ?_, hplain _ _ _ (by decide), rfl⟩)
  · show (1 : ℕ) ∈ [0, 1]
    decide
  · show (0 : ℕ) ∈ [0, 1]
    decide

/-- The second may be given any IP at the same port, too. -/
theorem any_after_specific : ∃ t, Reach (Step fun _ => none) init t ∧ ¬t.Apart := by
  refine ⟨(Op.bind 1 ⟨0, 5000⟩).exec (fun _ => none) bound, ?_, fun h => ?_⟩
  · refine ((((Relation.ReflTransGen.refl.tail ⟨.alloc sUdp, trivial, rfl⟩).tail
      ⟨.alloc sUdp, trivial, rfl⟩).tail
      ⟨.bind 0 ⟨1, 5000⟩, ?_, rfl⟩).tail ⟨.bind 1 ⟨0, 5000⟩, ?_, rfl⟩)
    · show (1 : ℕ) ∈ [0, 1]
      decide
    · show (0 : ℕ) ∈ [0, 1]
      decide
  · refine h 0 ?_ 1 ?_ (by decide) (by decide) (by decide) (by decide) (Or.inr (Or.inr (by decide)))
    · show (0 : ℕ) ∈ [0, 1]
      decide
    · show (1 : ℕ) ∈ [0, 1]
      decide

end Cosiris.Sock
