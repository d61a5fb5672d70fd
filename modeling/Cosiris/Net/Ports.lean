import Cosiris.Net.Sock
import Mathlib.Data.List.Perm.Subperm
import Mathlib.Data.List.Range

/-!
# Ephemeral ports

`port_alloc` hands out ports by a bitmap for each protocol. Nothing calls `port_free`: a socket
that is closed, or bound once more, takes its port with it. Without such calls the bits that are
set are the ports of the sockets in the table; there are more ports than sockets, so that one is
always free. -/

namespace Cosiris.Sock

open Function

/-- The bitmap of a protocol. -/
def Table.ports (t : Table) (proto : UInt8) : Bmap :=
  if proto = sUdp then t.udpPorts else t.tcpPorts

/-- A protocol that has ports. -/
def HasPorts (proto : UInt8) : Prop := proto = sUdp ∨ proto = sTcp

/-- The socket holds the port of this bit. -/
def Table.Holds (t : Table) (i bit : ℕ) : Prop := (t.sock i).loc.port.toNat = minPort + bit

/-- The bits that are set are the ports of the sockets in the table, and no two of these have the
same. -/
structure Table.Accounted (t : Table) : Prop where
  sound : t.Sound
  valid : ∀ proto, HasPorts proto → (t.ports proto).Valid ∧ (t.ports proto).size = maxPorts
  used : ∀ proto, HasPorts proto → ∀ bit < maxPorts,
    ((t.ports proto).Used bit ↔ ∃ i ∈ t.socks, (t.sock i).proto = proto ∧ t.Holds i bit)
  range : ∀ i ∈ t.socks, (t.sock i).loc.port ≠ 0 → HasPorts (t.sock i).proto ∧ ∃ bit < maxPorts,
      t.Holds i bit
  distinct : ∀ i ∈ t.socks, ∀ j ∈ t.socks, i ≠ j → (t.sock i).proto = (t.sock j).proto →
    (t.sock i).loc.port = (t.sock j).loc.port → (t.sock i).loc.port = 0

section

variable {t t' : Table} {i bit : ℕ} {addr : Addr} {proto : UInt8} {route : UInt32 → Option ℕ}

/-- A socket without a port holds none. -/
theorem not_holds {j b : ℕ} (h0 : (t.sock j).loc.port = 0) : ¬t.Holds j b := by
  unfold Table.Holds minPort
  rw [h0]
  show ¬0 = _
  omega

/-- A socket of the table that has a port. -/
def Table.Ported (t : Table) (i : ℕ) : Prop := i ∈ t.socks ∧ (t.sock i).loc.port ≠ 0

/-- Sockets without a port do not matter. -/
theorem Table.Accounted.congr (ht : t.Accounted) (hs : t'.Sound)
    (hports : ∀ p, t'.ports p = t.ports p) (hiff : ∀ j, t'.Ported j ↔ t.Ported j)
    (hsame : ∀ j, t.Ported j →
      (t'.sock j).proto = (t.sock j).proto ∧ (t'.sock j).loc = (t.sock j).loc) : t'.Accounted := by
  have hholds : ∀ j b, t.Ported j → (t'.Holds j b ↔ t.Holds j b) := fun j b hj => by
    unfold Table.Holds
    rw [(hsame j hj).2]
  have hheld : ∀ p b, (∃ j ∈ t'.socks, (t'.sock j).proto = p ∧ t'.Holds j b) ↔
      ∃ j ∈ t.socks, (t.sock j).proto = p ∧ t.Holds j b := by
    intro p b
    constructor
    · rintro ⟨j, hj, hp, hh⟩
      have hported := (hiff j).mp ⟨hj, fun h0 => not_holds h0 hh⟩
      exact ⟨j, hported.1, by rw [← (hsame j hported).1, hp], (hholds j b hported).mp hh⟩
    · rintro ⟨j, hj, hp, hh⟩
      have hported : t.Ported j := ⟨hj, fun h0 => not_holds h0 hh⟩
      exact ⟨j, ((hiff j).mpr hported).1, by rw [(hsame j hported).1, hp],
        (hholds j b hported).mpr hh⟩
  refine ⟨hs, fun p hp => by rw [hports]; exact ht.valid p hp, fun p hp b hb => ?_,
    fun j hj hne => ?_,
    fun j hj k hk hjk hpp hport => ?_⟩
  · rw [hports, ht.used p hp b hb, hheld]
  · have hported := (hiff j).mp ⟨hj, hne⟩
    obtain ⟨hp, b, hb, hh⟩ := ht.range j hported.1 hported.2
    exact ⟨by rw [(hsame j hported).1]; exact hp, b, hb, (hholds j b hported).mpr hh⟩
  · by_contra hne
    have hj' := (hiff j).mp ⟨hj, hne⟩
    have hk' := (hiff k).mp ⟨hk, hport ▸ hne⟩
    rw [(hsame j hj').1, (hsame k hk').1] at hpp
    rw [(hsame j hj').2, (hsame k hk').2] at hport
    exact hj'.2 (ht.distinct j hj'.1 k hk'.1 hjk hpp hport)

theorem Table.SameLocal.accounted (h : t.SameLocal t')
    (hp : ∀ proto, t'.ports proto = t.ports proto) (ht : t.Accounted) :
    t'.Accounted := by
  refine ht.congr (h.sound ht.sound) hp (fun j => ?_) fun j _ => ⟨h.proto j, h.loc j⟩
  unfold Table.Ported
  rw [h.socks, h.loc]

theorem connectTo_ports : (connectTo route i addr t).2.ports proto = t.ports proto := by
  have hrem : (sockSetRemAddr route i addr t).2.ports proto = t.ports proto := by
    unfold sockSetRemAddr
    split <;> rfl
  exact hrem

/-- A port that is handed out is that of a bit that was clear. -/
theorem portAlloc_some {port : ℕ} (ht : t.Accounted) (h : portAlloc proto t = (some port, t')) :
    ∃ bit < maxPorts, port = bit + minPort ∧ HasPorts proto ∧ ¬(t.ports proto).Used bit ∧
      t'.ports proto = (t.ports proto).set bit ∧ ∀ p, HasPorts p → p ≠ proto →
        t'.ports p = t.ports p := by
  have hvalid := ht.valid proto
  unfold portAlloc at h
  unfold Table.ports at *
  split_ifs at h hvalid with hu htcp
  · obtain ⟨hvalid, hsize⟩ := hvalid (Or.inl hu)
    cases hf : t.udpPorts.getFree with
    | none => rw [hf] at h; cases h
    | some r =>
      obtain ⟨bit, b⟩ := r
      rw [hf] at h
      cases h
      obtain ⟨hclear, hlt, rfl⟩ := Bmap.getFree_some hvalid hf
      refine ⟨bit, by omega, rfl, Or.inl hu, by rwa [if_pos hu], by rw [if_pos hu, if_pos hu],
        fun p hp hne => ?_⟩
      rw [if_neg (fun he => hne (he.trans hu.symm)), if_neg (fun he => hne (he.trans hu.symm))]
  · obtain ⟨hvalid, hsize⟩ := hvalid (Or.inr htcp)
    cases hf : t.tcpPorts.getFree with
    | none => rw [hf] at h; cases h
    | some r =>
      obtain ⟨bit, b⟩ := r
      rw [hf] at h
      cases h
      obtain ⟨hclear, hlt, rfl⟩ := Bmap.getFree_some hvalid hf
      refine ⟨bit, by omega, rfl, Or.inr htcp, by rwa [if_neg hu], by rw [if_neg hu, if_neg hu],
        fun p hp hne => ?_⟩
      have hpu : p = sUdp := hp.resolve_right fun he => hne (he.trans htcp.symm)
      rw [if_pos hpu, if_pos hpu]
  · cases h

/-- Without a port nothing changes. -/
theorem portAlloc_none (h : portAlloc proto t = (none, t')) : t' = t := by
  unfold portAlloc at h
  split_ifs at h
  · cases hf : t.udpPorts.getFree with
    | none => rw [hf] at h; cases h; rfl
    | some r => rw [hf] at h; cases h
  · cases hf : t.tcpPorts.getFree with
    | none => rw [hf] at h; cases h; rfl
    | some r => rw [hf] at h; cases h
  · cases h
    rfl

/-- There are more ports than sockets. -/
theorem Table.Accounted.getFree_ne_none (ht : t.Accounted) (hp : HasPorts proto) :
    (t.ports proto).getFree ≠ none := by
  intro hnone
  obtain ⟨hvalid, hsize⟩ := ht.valid proto hp
  have hall := Bmap.getFree_none hvalid hnone
  rw [hsize] at hall
  have hsub : List.range maxPorts ⊆ t.socks.map fun i => (t.sock i).loc.port.toNat - minPort := by
    intro bit hbit
    have hlt := List.mem_range.mp hbit
    obtain ⟨i, hi, -, hholds⟩ := (ht.used proto hp bit hlt).mp (hall bit hlt)
    refine List.mem_map.mpr ⟨i, hi, ?_⟩
    rw [hholds, Nat.add_sub_cancel_left]
  have hle := (List.nodup_range.subperm hsub).length_le
  have hmax := ht.sound.length_le
  rw [List.length_range, List.length_map] at hle
  unfold maxPorts at hle
  unfold maxSocks at hmax
  omega

theorem Table.Accounted.portAlloc_ne_none (ht : t.Accounted) (hp : HasPorts proto) :
    (portAlloc proto t).1 ≠ none := by
  have hfree := ht.getFree_ne_none hp
  unfold portAlloc
  unfold Table.ports at hfree
  split_ifs at hfree ⊢ with hu htcp
  · cases hf : t.udpPorts.getFree with
    | none => exact absurd hf hfree
    | some r => exact Option.some_ne_none _
  · cases hf : t.tcpPorts.getFree with
    | none => exact absurd hf hfree
    | some r => exact Option.some_ne_none _
  · exact absurd hp (not_or.mpr ⟨hu, htcp⟩)

theorem toNat_ofNat_port (hb : bit < maxPorts) :
    (UInt16.ofNat (bit + minPort)).toNat = minPort + bit := by
  rw [UInt16.toNat_ofNat']
  unfold maxPorts at hb
  unfold minPort
  omega

/-- Socket `i` has been given the port of a bit. -/
structure Table.Gives (t : Table) (i bit : ℕ) (t' : Table) : Prop where
  socks : t'.socks = t.socks
  next : t'.next = t.next
  proto : ∀ j, (t'.sock j).proto = (t.sock j).proto
  loc : ∀ j, j ≠ i → (t'.sock j).loc = (t.sock j).loc
  port : t'.Holds i bit
  ports : t'.ports (t.sock i).proto = (t.ports (t.sock i).proto).set bit
  ports_ne : ∀ p, HasPorts p → p ≠ (t.sock i).proto → t'.ports p = t.ports p

theorem Table.Gives.holds_ne {j b : ℕ} (h : t.Gives i bit t') (hj : j ≠ i) :
    t'.Holds j b ↔ t.Holds j b := by
  unfold Table.Holds
  rw [h.loc j hj]

/-- The ports that are held then. -/
theorem Table.Gives.held_iff {p : UInt8} {b : ℕ} (h : t.Gives i bit t') (hi : i ∈ t.socks)
    (h0 : (t.sock i).loc.port = 0) :
    (∃ j ∈ t'.socks, (t'.sock j).proto = p ∧ t'.Holds j b) ↔
      (p = (t.sock i).proto ∧ b = bit) ∨ ∃ j ∈ t.socks, (t.sock j).proto = p ∧ t.Holds j b := by
  rw [h.socks]
  constructor
  · rintro ⟨j, hj, hp, hh⟩
    rw [h.proto] at hp
    by_cases hji : j = i
    · subst hji
      have := h.port
      unfold Table.Holds at this hh
      exact Or.inl ⟨hp.symm, by omega⟩
    · exact Or.inr ⟨j, hj, hp, (h.holds_ne hji).mp hh⟩
  · rintro (⟨rfl, rfl⟩ | ⟨j, hj, hp, hh⟩)
    · exact ⟨i, hi, h.proto i, h.port⟩
    · have hji : j ≠ i := by
        rintro rfl
        exact not_holds h0 hh
      exact ⟨j, hj, by rw [h.proto, hp], (h.holds_ne hji).mpr hh⟩

theorem Table.Accounted.gives (ht : t.Accounted) (h : t.Gives i bit t') (hi : i ∈ t.socks)
    (h0 : (t.sock i).loc.port = 0)
    (hproto : HasPorts (t.sock i).proto) (hbit : bit < maxPorts)
    (hclear : ¬(t.ports (t.sock i).proto).Used bit) :
    t'.Accounted := by
  -- No other socket of the protocol has the port.
  have hfresh : ∀ j ∈ t.socks, (t.sock j).proto = (t.sock i).proto → ¬t.Holds j bit :=
    fun j hj hp hh => hclear ((ht.used _ hproto bit hbit).mpr ⟨j, hj, hp, hh⟩)
  have hnew : ∀ j ∈ t.socks, j ≠ i → (t.sock j).proto = (t.sock i).proto →
    (t'.sock j).loc.port ≠ (t'.sock i).loc.port := by
    intro j hj hji hp he
    refine hfresh j hj hp ((h.holds_ne hji).mp ?_)
    unfold Table.Holds
    rw [he]
    exact h.port
  refine ⟨⟨h.socks ▸ ht.sound.nodup, by rw [h.socks, h.next]; exact ht.sound.lt_next,
    h.socks ▸ ht.sound.length_le⟩,
    fun p hp => ?_, fun p hp b hb => ?_, fun j hj hne => ?_, fun j hj k hk hjk hpp hport => ?_⟩
  · by_cases hpi : p = (t.sock i).proto
    · subst hpi
      obtain ⟨hvalid, hsize⟩ := ht.valid _ hp
      rw [h.ports]
      exact ⟨hvalid.set (by omega), hsize⟩
    · rw [h.ports_ne p hp hpi]
      exact ht.valid p hp
  · rw [h.held_iff hi h0]
    by_cases hpi : p = (t.sock i).proto
    · subst hpi
      rw [h.ports, Bmap.used_set, ht.used _ hp b hb]
      simp only [true_and]
    · rw [h.ports_ne p hp hpi, ht.used p hp b hb]
      simp only [hpi, false_and, false_or]
  · rw [h.proto]
    by_cases hji : j = i
    · subst hji
      exact ⟨hproto, bit, hbit, h.port⟩
    · rw [h.loc j hji] at hne
      obtain ⟨hp, b, hb, hh⟩ := ht.range j (h.socks ▸ hj) hne
      exact ⟨hp, b, hb, (h.holds_ne hji).mpr hh⟩
  · rw [h.socks] at hj hk
    rw [h.proto, h.proto] at hpp
    by_cases hji : j = i
    · subst hji
      exact absurd hport.symm (hnew k hk (Ne.symm hjk) hpp.symm)
    · by_cases hki : k = i
      · subst hki
        exact absurd hport (hnew j hj hji hpp)
      · rw [h.loc j hji] at hport ⊢
        rw [h.loc k hki] at hport
        exact ht.distinct j hj k hk hjk hpp hport

/-- A port that was just handed out is given to a socket that has none. -/
theorem Table.Accounted.setLocAddr {port : ℕ} (ht : t.Accounted) (hi : i ∈ t.socks)
    (h0 : (t.sock i).loc.port = 0)
    (halloc : portAlloc (t.sock i).proto t = (some port, t')) (ip : UInt32) :
    ∃ bit < maxPorts, ¬(t.ports (t.sock i).proto).Used bit ∧
      t.Gives i bit (sockSetLocAddr i ⟨ip, .ofNat port⟩ t').2 ∧
      (sockSetLocAddr i ⟨ip, .ofNat port⟩ t').1 = 0 ∧
        (sockSetLocAddr i ⟨ip, .ofNat port⟩ t').2.Accounted := by
  obtain ⟨bit, hbit, rfl, hproto, hclear, hset, hother⟩ := portAlloc_some ht halloc
  have hsame : t.SameLocal t' := by
    have := portAlloc_sameLocal (t.sock i).proto t
    rwa [halloc] at this
  have hport := toNat_ofNat_port hbit
  have hnot : ¬t'.Taken i ⟨ip, .ofNat (bit + minPort)⟩ := by
    rintro ⟨j, hj, hp, hpt, -⟩
    rw [hsame.socks] at hj
    rw [hsame.proto, hsame.proto] at hp
    rw [hsame.loc] at hpt
    refine hclear ((ht.used _ hproto bit hbit).mpr ⟨j, hj, hp, ?_⟩)
    unfold Table.Holds
    rw [hpt]
    exact hport
  have hgives : t.Gives i bit (sockSetLocAddr i ⟨ip, .ofNat (bit + minPort)⟩ t').2 := by
    rw [sockSetLocAddr, if_neg hnot]
    refine ⟨hsame.socks, hsame.next, fun j => ?_, fun j hj => ?_, ?_, hset, hother⟩
    · dsimp only
      by_cases hj : j = i
      · subst hj
        rw [Table.change_sock_self, ← hsame.proto]
      · rw [Table.change_sock_ne _ hj, hsame.proto]
    · dsimp only
      rw [Table.change_sock_ne _ hj, hsame.loc]
    · unfold Table.Holds
      dsimp only
      rw [Table.change_sock_self]
      exact hport
  exact ⟨bit, hbit, hclear,
    hgives, by rw [sockSetLocAddr, if_neg hnot], ht.gives hgives hi h0 hproto hbit hclear⟩

/-! ### Runs -/

/-- A call of a run with ephemeral ports: no socket that has a port is bound once more or closed,
and those that are connected are UDP sockets. -/
def Op.Ephemeral (t : Table) : Op → Prop
  | alloc _ => True
  | bind i addr => addr.port = 0 ∧ (t.sock i).loc.port = 0
  | connect i _ => (t.sock i).proto = sUdp
  | free i => (t.sock i).loc.port = 0

theorem Table.Accounted.alloc (ht : t.Accounted) : (sockAlloc proto t).2.Accounted := by
  have hs := ht.sound.alloc proto
  unfold sockAlloc at *
  split_ifs at * with hfull
  · exact ht
  · have hne : ∀ j ∈ t.socks, j ≠ t.next :=
      fun j hj he => Nat.lt_irrefl _ (he ▸ ht.sound.lt_next j hj)
    refine ht.congr hs (fun _ => rfl) (fun j => ?_) fun j hj => ?_
    · constructor
      · rintro ⟨hj, h0⟩
        dsimp only at hj h0
        rcases List.mem_append.mp hj with hj | hj
        · rw [update_of_ne (hne j hj)] at h0
          exact ⟨hj, h0⟩
        · rw [List.mem_singleton.mp hj, update_self] at h0
          exact absurd rfl h0
      · rintro ⟨hj, h0⟩
        refine ⟨List.mem_append_left _ hj, ?_⟩
        dsimp only
        rwa [update_of_ne (hne j hj)]
    · dsimp only
      rw [update_of_ne (hne j hj.1)]
      exact ⟨rfl, rfl⟩

theorem Table.Accounted.free (ht : t.Accounted) (h0 : (t.sock i).loc.port = 0) :
    (sockFree i t).Accounted := by
  refine ht.congr ht.sound.free (fun _ => rfl) (fun j => ?_) fun _ _ => ⟨rfl, rfl⟩
  constructor
  · exact fun h => ⟨List.mem_of_mem_erase h.1, h.2⟩
  · rintro ⟨hj, hne⟩
    have hji : j ≠ i := by
      rintro rfl
      exact hne h0
    exact ⟨(List.mem_erase_of_ne hji).mpr hj, hne⟩

/-- A UDP socket without a port is given one when it is connected. -/
theorem Table.Accounted.connect (ht : t.Accounted) (route : UInt32 → Option ℕ) (addr : Addr)
    (hi : i ∈ t.socks) (h0 : (t.sock i).loc.port = 0)
    (hu : (t.sock i).proto = sUdp) :
    (udpConnect route i addr t).1 = 0 ∧ (udpConnect route i addr t).2.Accounted ∧
      ∃ bit < maxPorts, ¬t.udpPorts.Used bit ∧ (udpConnect route i addr t).2.Holds i bit := by
  cases hr : portAlloc sUdp t with
  | mk port t' =>
    cases port with
    | none =>
      have := ht.portAlloc_ne_none (show HasPorts sUdp from Or.inl rfl)
      rw [hr] at this
      exact absurd rfl this
    | some port =>
      rw [← hu] at hr
      obtain ⟨bit, hbit, hclear, hgives, hzero, hacc⟩ := ht.setLocAddr hi h0 hr 0
      have hconn : udpConnect route i addr t =
        connectTo route i addr (sockSetLocAddr i ⟨0, .ofNat port⟩ t').2 := by
        rw [hu] at hr
        unfold udpConnect
        rw [if_pos h0, hr]
        dsimp only [toPort]
        rw [hzero, if_neg (by decide)]
      have hsame := connectTo_sameLocal route i addr (sockSetLocAddr i ⟨0, .ofNat port⟩ t').2
      rw [hconn]
      refine ⟨rfl, hsame.accounted (fun _ => connectTo_ports) hacc, bit, hbit, ?_, ?_⟩
      · rw [hu] at hclear
        exact hclear
      · unfold Table.Holds
        rw [hsame.loc]
        exact hgives.port

theorem Op.exec_accounted {op : Op} (ht : t.Accounted) (hl : op.Live t) (he : op.Ephemeral t) :
    (op.exec route t).Accounted := by
  cases op with
  | alloc proto => exact ht.alloc
  | bind i addr =>
    obtain ⟨haddr, h0⟩ := he
    show (sockBind i addr t).2.Accounted
    unfold sockBind
    rw [if_pos haddr]
    cases hr : portAlloc (t.sock i).proto t with
    | mk port t' =>
      cases port with
      | none =>
        rw [portAlloc_none hr]
        exact ht
      | some port =>
        obtain ⟨-, -, -, -, -, hacc⟩ := ht.setLocAddr hl h0 hr addr.ip
        exact hacc
  | connect i addr =>
    by_cases h0 : (t.sock i).loc.port = 0
    · exact (ht.connect route addr hl h0 he).2.1
    · show (udpConnect route i addr t).2.Accounted
      unfold udpConnect
      rw [if_neg h0]
      exact (connectTo_sameLocal ..).accounted (fun _ => connectTo_ports) ht
  | free i => exact ht.free he

/-- A bind that gets no port fails. -/
theorem sockBind_of_none (h0 : addr.port = 0) (h : (portAlloc (t.sock i).proto t).1 = none) :
    sockBind i addr t = (-1, t) := by
  cases hr : portAlloc (t.sock i).proto t with
  | mk port t' =>
    rw [hr] at h
    cases h
    unfold sockBind
    rw [if_pos h0, hr, portAlloc_none hr]

end

/-- A step of a run with ephemeral ports. -/
def EphemeralStep (route : UInt32 → Option ℕ) (t t' : Table) : Prop :=
  ∃ op : Op, op.Live t ∧ op.Ephemeral t ∧ t' = op.exec route t

theorem init_accounted : init.Accounted := by
  have hports : ∀ p, init.ports p =
    Bmap.alloc maxPorts := fun p => by unfold Table.ports; split_ifs <;> rfl
  refine ⟨init_sound, fun p _ => ?_, fun p _ b _ => ?_, fun _ h => (by cases h), fun _ h =>
    (by cases h)⟩
  · rw [hports]
    exact ⟨⟨by decide, by decide⟩, rfl⟩
  · rw [hports]
    exact ⟨fun h => absurd h (Bmap.not_used_alloc _ _), fun ⟨_, h, _⟩ => by cases h⟩

/-- **Ephemeral ports**: in every run in which no socket that has a port is bound once more or
closed, and UDP sockets are connected only, the bits set in the UDP bitmap are the ports of the
UDP sockets in the table, no two sockets of a protocol have the same port, a bind that gets no
port fails and changes nothing, and a UDP socket that has no port is given a free one when it is
connected. -/
theorem ports_accounted (route : UInt32 → Option ℕ) (t : Table)
    (h : Reach (EphemeralStep route) init t) :
    (∀ bit < maxPorts, t.udpPorts.Used bit ↔
      ∃ i ∈ t.socks, (t.sock i).proto = sUdp ∧ (t.sock i).loc.port.toNat = minPort + bit) ∧
    (∀ i ∈ t.socks, ∀ j ∈ t.socks, i ≠ j → (t.sock i).proto = (t.sock j).proto →
      (t.sock i).loc.port = (t.sock j).loc.port → (t.sock i).loc.port = 0) ∧
    (∀ i ∈ t.socks, ∀ addr : Addr, addr.port = 0 → (portAlloc (t.sock i).proto t).1 = none →
      sockBind i addr t = (-1, t)) ∧
    (∀ i ∈ t.socks, ∀ addr, (t.sock i).proto = sUdp → (t.sock i).loc.port = 0 →
      (udpConnect route i addr t).1 = 0 ∧
      ∃ bit < maxPorts, ¬t.udpPorts.Used bit ∧
        ((udpConnect route i addr t).2.sock i).loc.port.toNat =
        minPort + bit) := by
  have ht : t.Accounted := by
    refine Reach.invariant (I := Table.Accounted) ?_ init_accounted h
    rintro s s' hs ⟨op, hl, he, rfl⟩
    exact op.exec_accounted hs hl he
  refine ⟨fun bit hbit => ht.used sUdp (Or.inl rfl) bit hbit,
    ht.distinct, fun i _ addr h0 hn => sockBind_of_none h0 hn, fun i hi addr hu h0 => ?_⟩
  obtain ⟨hzero, -, hport⟩ := ht.connect route addr hi h0 hu
  exact ⟨hzero, hport⟩

/-- A UDP socket, connected. -/
def connected : Table :=
  (Op.connect 0 ⟨1, 53⟩).exec (fun _ => none) ((Op.alloc sUdp).exec (fun _ => none) init)

/-- The socket has the one port that is in use. -/
theorem ports_accounted_one :
    (connected.sock 0).loc.port = 32768 ∧ ∀ bit < maxPorts, connected.udpPorts.Used bit ↔
      ∃ i ∈ connected.socks, (connected.sock i).proto = sUdp ∧
        (connected.sock i).loc.port.toNat = minPort + bit := by
  refine ⟨by decide, (ports_accounted (fun _ => none) connected ?_).1⟩
  refine ((Relation.ReflTransGen.refl.tail ⟨.alloc sUdp, trivial, trivial, rfl⟩).tail
    ⟨.connect 0 ⟨1, 53⟩, ?_, ?_, rfl⟩)
  · show (0 : ℕ) ∈ [0]
    decide
  · show (0 : UInt8) = sUdp
    rfl

/-- A socket that is connected and closed leaves its port in use. -/
theorem port_leaked :
    ∃ t, Reach (Step fun _ => none) init t ∧ t.socks = [] ∧ t.udpPorts.Used 0 := by
  refine ⟨(Op.free 0).exec (fun _ => none) connected, ?_, rfl, by decide⟩
  refine (((Relation.ReflTransGen.refl.tail ⟨.alloc sUdp, trivial, rfl⟩).tail
    ⟨.connect 0 ⟨1, 53⟩, ?_, rfl⟩).tail
    ⟨.free 0, ?_, rfl⟩)
  · show (0 : ℕ) ∈ [0]
    decide
  · show (0 : ℕ) ∈ [0]
    decide

end Cosiris.Sock
