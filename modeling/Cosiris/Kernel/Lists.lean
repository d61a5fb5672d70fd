import Cosiris.Lib.Links
import Cosiris.Lib.Prog
import Mathlib.Data.List.Perm.Subperm

/-!
# Lists

`list.c`. A list is a sequence of items, each at the address of its node, and `list_add`,
`list_insert_before` and `list_del` are the operations on the sequence, whatever else happens to the
memory in between.

A pointer is its value, and `NULL` is 0, where nothing is mapped. The address that `malloc` returns
is an argument. A free function keeps to the data that it is handed.
-/

namespace Cosiris.Lists

open Prog

/-! ### The code -/

inductive Halt where
  /-- An access through a pointer to no node. -/
  | fault

/-- The memory, field by field of `node_t`, and a `list_t` in it. -/
structure State (α : Type) where
  live : UInt32 → Bool
  prev : UInt32 → UInt32
  next : UInt32 → UInt32
  data : UInt32 → α
  head : UInt32
  tail : UInt32
  numItems : UInt32
  freeFunction : Bool
  /-- What the free function has been called on. -/
  freed : List α

abbrev ListM (α : Type) := Prog Halt (State α)

variable {α : Type}

/-- Access the node at an address. -/
def deref (a : UInt32) : ListM α (State α) := do
  let s ← read
  if s.live a then pure s else halt .fault

/-- `node->prev = p`. -/
def setPrev (node p : UInt32) : ListM α Unit := do
  let s ← deref node
  modify fun _ => { s with prev := Function.update s.prev node p }

/-- `node->next = n`. -/
def setNext (node n : UInt32) : ListM α Unit := do
  let s ← deref node
  modify fun _ => { s with next := Function.update s.next node n }

/-- `node->data = data`. -/
def setData (node : UInt32) (data : α) : ListM α Unit := do
  let s ← deref node
  modify fun _ => { s with data := Function.update s.data node data }

/-- `malloc`, which returns `addr`. -/
def malloc (addr : UInt32) : ListM α UInt32 := do
  if addr ≠ 0 then modify fun s => { s with live := Function.update s.live addr true }
  pure addr

def free (addr : UInt32) : ListM α Unit :=
  modify fun s => { s with live := Function.update s.live addr false }

/-- `list_open`. -/
def listOpen (freeFunction : Bool) : ListM α Unit := do
  modify fun s => { s with head := 0, tail := 0 }
  modify fun s => { s with numItems := 0 }
  modify fun s => { s with freeFunction := freeFunction, freed := [] }

/-- `new_node`. -/
def newNode (addr : UInt32) (data : α) : ListM α UInt32 := do
  let node ← malloc addr
  setPrev node 0
  setNext node 0
  setData node data
  pure node

/-- `list_add_node`. -/
def listAddNode (node : UInt32) : ListM α Unit := do
  let s ← read
  if s.head = 0 then modify fun s => { s with head := node, tail := node }
  else
    setPrev node s.tail
    setNext s.tail node
    modify fun s => { s with tail := node }
  modify fun s => { s with numItems := s.numItems + 1 }

/-- `list_add`. -/
def listAdd (addr : UInt32) (data : α) : ListM α UInt32 := do
  let node ← newNode addr data
  listAddNode node
  pure node

/-- `list_insert_before`. -/
def listInsertBefore (addr node : UInt32) (data : α) : ListM α UInt32 := do
  let n ← newNode addr data
  if n = 0 then pure 0
  else if node = 0 then
    listAddNode n
    pure n
  else
    let s ← deref node
    if s.prev node ≠ 0 then setNext (s.prev node) n
    else modify fun s => { s with head := n }
    let s ← deref node
    setPrev n (s.prev node)
    setNext n node
    setPrev node n
    modify fun s => { s with numItems := s.numItems + 1 }
    pure n

/-- `list_del`. -/
def listDel (node : UInt32) : ListM α Unit := do
  let s ← deref node
  let prev := s.prev node
  let next := s.next node
  if prev ≠ 0 then setNext prev next
  else modify fun s => { s with head := next }
  if next ≠ 0 then setPrev next prev
  else modify fun s => { s with tail := prev }
  let s ← read
  if s.freeFunction then
    let s ← deref node
    modify fun _ => { s with freed := s.freed ++ [s.data node] }
  free node
  modify fun s => { s with numItems := s.numItems - 1 }

/-! ### The sequence -/

/-- The items of a list in their order, each at the address of its node. -/
abbrev Items (α : Type) := List (UInt32 × α)

/-- The addresses of the nodes. -/
abbrev Items.addrs (l : Items α) : List UInt32 := l.map Prod.fst

/-- A call, with the address that `malloc` returns to it. -/
inductive Op (α : Type) where
  | add (addr : UInt32) (data : α)
  | insertBefore (addr node : UInt32) (data : α)
  | del (node : UInt32)

/-- The code of a call. -/
def Op.exec : Op α → ListM α Unit
  | add addr data => Functor.discard (listAdd addr data)
  | insertBefore addr node data => Functor.discard (listInsertBefore addr node data)
  | del node => listDel node

/-- The address of the new node. -/
def Op.addr? : Op α → Option UInt32
  | add addr _ | insertBefore addr _ _ => some addr
  | del _ => none

/-- What a call does to the sequence. -/
def Op.apply : Op α → Items α → Items α
  | add addr data, l => l ++ [(addr, data)]
  | insertBefore addr node data, l =>
    if node = 0 then l ++ [(addr, data)]
    else l.takeWhile (·.1 ≠ node) ++ (addr, data) :: l.dropWhile (·.1 ≠ node)
  | del node, l => l.filter (·.1 ≠ node)

/-- The node that is passed is one of the list, or `NULL`. -/
def Op.Member (l : Items α) : Op α → Prop
  | add _ _ => True
  | insertBefore _ node _ => node = 0 ∨ node ∈ l.addrs
  | del node => node ∈ l.addrs

/-- The calls that may come: `malloc` returns no address that is in use. -/
def Op.Allowed (s : State α) (l : Items α) (op : Op α) : Prop :=
  (∀ addr ∈ op.addr?, s.live addr = false) ∧ op.Member l

/-- What other code does to the memory: it leaves the list and its nodes alone. -/
structure Elsewhere (l : Items α) (s s' : State α) : Prop where
  head : s'.head = s.head
  tail : s'.tail = s.tail
  numItems : s'.numItems = s.numItems
  nodes : ∀ a ∈ l.addrs, s'.live a = s.live a ∧ s'.prev a = s.prev a ∧ s'.next a = s.next a ∧
    s'.data a = s.data a
  null : s'.live 0 = s.live 0

/-- The runs from `list_open` on, with the sequence beside the memory. -/
inductive Run : Items α → State α → Prop
  | start {s s' : State α} (freeFunction : Bool) (hnull : s.live 0 = false)
    (h : listOpen freeFunction s = .ok () s') : Run [] s'
  | call {l : Items α} {s s' : State α} {op : Op α} (hrun : Run l s) (hop : op.Allowed s l)
    (h : op.exec s = .ok () s') : Run (op.apply l) s'
  | elsewhere {l : Items α} {s s' : State α} (hrun : Run l s) (h : Elsewhere l s s') : Run l s'

/-! ### The invariant -/

/-- The nodes of the memory are those of the sequence, linked both ways. -/
structure State.Holds (s : State α) (l : Items α) : Prop where
  linked : Linked s.prev s.next 0 l.addrs 0
  head : s.head = l.addrs.headD 0
  tail : s.tail = l.addrs.getLastD 0
  numItems : s.numItems = .ofNat l.length
  nodup : l.addrs.Nodup
  live : ∀ a ∈ l.addrs, s.live a = true
  null : s.live 0 = false
  data : ∀ x ∈ l, s.data x.1 = x.2

/-- The state with a new node between two parts. -/
def State.inserted (s : State α) (l₁ l₂ : List UInt32) (a : UInt32) (d : α) : State α :=
  { s with
    live := Function.update s.live a true
    data := Function.update s.data a d
    prev := Function.update (fun x => if l₂.head? = some x then a else s.prev x) a (l₁.getLastD 0)
    next := Function.update (fun x => if l₁.getLast? = some x then a else s.next x) a (l₂.headD 0)
    head := if l₁ = [] then a else s.head
    tail := if l₂ = [] then a else s.tail
    numItems := s.numItems + 1 }

/-- The state without the node between two parts. -/
def State.removed (s : State α) (l₁ l₂ : List UInt32) (a : UInt32) : State α :=
  { s with
    live := Function.update s.live a false
    prev := fun x => if l₂.head? = some x then l₁.getLastD 0 else s.prev x
    next := fun x => if l₁.getLast? = some x then l₂.headD 0 else s.next x
    head := if l₁ = [] then l₂.headD 0 else s.head
    tail := if l₂ = [] then l₁.getLastD 0 else s.tail
    freed := if s.freeFunction then s.freed ++ [s.data a] else s.freed
    numItems := s.numItems - 1 }

section

variable {β : Type} {s s' : State α} {l l₁ l₂ : Items α} {a b : UInt32} {d : α}

/-- An address in use is none that is not. -/
theorem ne_of_live (hb : s.live b = true) (ha : s.live a = false) : b ≠ a := by
  rintro rfl
  exact Bool.false_ne_true (ha.symm.trans hb)

theorem State.Holds.zero_notMem (h : s.Holds l) : 0 ∉ l.addrs :=
  fun h0 => ne_of_live (h.live 0 h0) h.null rfl

/-- There are fewer items than addresses. -/
theorem State.Holds.length_lt (h : s.Holds l) : l.length < UInt32.size := by
  have hnodup : (0 :: l.addrs).Nodup := List.nodup_cons.mpr ⟨h.zero_notMem, h.nodup⟩
  have hsub : (0 :: l.addrs).map UInt32.toNat ⊆ List.range (UInt32.size) := by
    intro n hn
    obtain ⟨a, -, rfl⟩ := List.mem_map.mp hn
    exact List.mem_range.mpr a.toNat_lt_size
  have hle := (List.Nodup.subperm (hnodup.map (fun _ _ => UInt32.toNat.inj)) hsub).length_le
  rw [List.length_map, List.length_cons, List.length_map, List.length_range] at hle
  exact hle

theorem State.Holds.inserted (h : s.Holds (l₁ ++ l₂)) (ha : s.live a = false) (ha0 : a ≠ 0) :
    (s.inserted l₁.addrs l₂.addrs a d).Holds (l₁ ++ (a, d) :: l₂) := by
  have haddrs : (l₁ ++ (a, d) :: l₂).addrs = l₁.addrs ++ a :: l₂.addrs := List.map_append
  have happend : (l₁ ++ l₂).addrs = l₁.addrs ++ l₂.addrs := List.map_append
  have hmem : a ∉ l₁.addrs ++ l₂.addrs :=
    fun hmem => ne_of_live (h.live a (happend ▸ hmem)) ha rfl
  have hne {x} (hx : x ∈ l₁.addrs ++ l₂.addrs) : x ≠ a := fun hxa => hmem (hxa ▸ hx)
  obtain ⟨hlinked, hhead, htail, hnum, hnodup, hlive, hnull, hdata⟩ := h
  rw [happend] at hlinked hhead htail hnodup hlive
  constructor <;> try rw [haddrs]
  · exact hlinked.insert hnodup hmem
  · cases l₁ with
    | nil => rfl
    | cons x l₁ => exact hhead
  · cases l₂ with
    | nil => simp [State.inserted]
    | cons x l₂ => simpa [State.inserted] using htail
  · rw [List.length_append, List.length_cons, ← Nat.add_assoc, ← List.length_append]
    exact (congrArg (· + 1) hnum).trans (UInt32.ofNat_add ..).symm
  · exact List.nodup_middle.mpr (List.nodup_cons.mpr ⟨hmem, hnodup⟩)
  · intro x hx
    rcases List.mem_cons.mp (List.perm_middle.mem_iff.mp hx) with rfl | hx
    · exact Function.update_self ..
    · exact (Function.update_of_ne (hne hx) ..).trans (hlive x hx)
  · exact (Function.update_of_ne ha0.symm ..).trans hnull
  · intro x hx
    rcases List.mem_cons.mp (List.perm_middle.mem_iff.mp hx) with rfl | hx
    · exact Function.update_self ..
    · have hxa : x.1 ∈ (l₁ ++ l₂).addrs := List.mem_map_of_mem hx
      exact (Function.update_of_ne (hne (happend ▸ hxa)) ..).trans (hdata x hx)

theorem State.Holds.removed (h : s.Holds (l₁ ++ (a, d) :: l₂)) :
    (s.removed l₁.addrs l₂.addrs a).Holds (l₁ ++ l₂) := by
  have haddrs : (l₁ ++ (a, d) :: l₂).addrs = l₁.addrs ++ a :: l₂.addrs := List.map_append
  have happend : (l₁ ++ l₂).addrs = l₁.addrs ++ l₂.addrs := List.map_append
  obtain ⟨hlinked, hhead, htail, hnum, hnodup, hlive, hnull, hdata⟩ := h
  rw [haddrs] at hlinked hhead htail hnodup hlive
  obtain ⟨hmem, hnodup'⟩ := List.nodup_cons.mp (List.nodup_middle.mp hnodup)
  have hne {x} (hx : x ∈ l₁.addrs ++ l₂.addrs) : x ≠ a := fun hxa => hmem (hxa ▸ hx)
  constructor <;> try rw [happend]
  · exact hlinked.remove hnodup
  · cases l₁ with
    | nil => rfl
    | cons x l₁ => exact hhead
  · cases l₂ with
    | nil => simp [State.removed]
    | cons x l₂ => simpa [State.removed] using htail
  · rw [List.length_append, List.length_cons, ← Nat.add_assoc, ← List.length_append] at hnum
    have hnum' : s.numItems - 1 = .ofNat (l₁ ++ l₂).length := by
      rw [hnum, UInt32.ofNat_add]
      exact UInt32.add_sub_cancel ..
    exact hnum'
  · exact hnodup'
  · intro x hx
    refine (Function.update_of_ne (hne hx) ..).trans (hlive x ?_)
    exact List.perm_middle.mem_iff.mpr (List.mem_cons_of_mem _ hx)
  · have ha0 := ne_of_live (hlive a List.mem_append_cons_self) hnull
    exact (Function.update_of_ne ha0.symm ..).trans hnull
  · intro x hx
    exact hdata x (List.perm_middle.mem_iff.mpr (List.mem_cons_of_mem _ hx))

/-! ### The calls -/

section

variable (ha : s.live a = true)
include ha

theorem deref_bind {f : State α → ListM α β} {r : Outcome Halt (State α) β} (h : f s s = r) :
    (deref a >>= f) s = r := by
  have hderef : deref a s = .ok s s := by
    show (if s.live a then pure s else halt .fault : ListM α (State α)) s = _
    rw [if_pos ha]
    rfl
  exact (bind_of_ok hderef).trans h

theorem setPrev_bind {p : UInt32} {f : Unit → ListM α β} {r : Outcome Halt (State α) β}
    (h : f () { s with prev := Function.update s.prev a p } = r) : (setPrev a p >>= f) s = r := by
  rw [← h]
  apply bind_of_ok
  exact deref_bind ha rfl

theorem setNext_bind {n : UInt32} {f : Unit → ListM α β} {r : Outcome Halt (State α) β}
    (h : f () { s with next := Function.update s.next a n } = r) : (setNext a n >>= f) s = r := by
  rw [← h]
  apply bind_of_ok
  exact deref_bind ha rfl

theorem setData_bind {d : α} {f : Unit → ListM α β} {r : Outcome Halt (State α) β}
    (h : f () { s with data := Function.update s.data a d } = r) : (setData a d >>= f) s = r := by
  rw [← h]
  apply bind_of_ok
  exact deref_bind ha rfl

end

theorem update_getLast (l : List UInt32) (f : UInt32 → UInt32) (a v : UInt32) :
    Function.update f a v = fun x => if (l ++ [a]).getLast? = some x then v else f x := by
  funext x
  simp [Function.update_apply, eq_comm]

theorem update_head (l : List UInt32) (f : UInt32 → UInt32) (a v : UInt32) :
    Function.update f a v = fun x => if (a :: l).head? = some x then v else f x := by
  funext x
  simp [Function.update_apply, eq_comm]

/-- A link to the node behind a part, which the last node of the part has, or else the list. -/
theorem setNext_or_head {l : List UInt32} (hl : ∀ x ∈ l, s.live x = true) (hnull : s.live 0 = false)
    {n : UInt32} {f : Unit → ListM α β} {r : Outcome Halt (State α) β}
    (h : f () { s with
      next := fun x => if l.getLast? = some x then n else s.next x
      head := if l = [] then n else s.head } = r) :
    (if l.getLastD 0 ≠ 0 then setNext (l.getLastD 0) n >>= f
      else modify (fun s => { s with head := n }) >>= f) s = r := by
  rw [← h]
  obtain rfl | ⟨l, a, rfl⟩ := l.eq_nil_or_concat'
  · simp [modify_bind]
  · have ha := hl a List.mem_append_cons_self
    rw [List.getLastD_concat, if_pos (ne_of_live ha hnull),
      setNext_bind ha rfl, update_getLast l, if_neg (by simp)]

/-- A link to the node before a part. -/
theorem setPrev_or_tail {l : List UInt32} (hl : ∀ x ∈ l, s.live x = true) (hnull : s.live 0 = false)
    {p : UInt32} {f : Unit → ListM α β} {r : Outcome Halt (State α) β}
    (h : f () { s with
      prev := fun x => if l.head? = some x then p else s.prev x
      tail := if l = [] then p else s.tail } = r) :
    (if l.headD 0 ≠ 0 then setPrev (l.headD 0) p >>= f
      else modify (fun s => { s with tail := p }) >>= f) s = r := by
  rw [← h]
  cases l with
  | nil => simp [modify_bind]
  | cons a l =>
    have ha := hl a List.mem_cons_self
    rw [List.headD_cons, if_pos (ne_of_live ha hnull), setPrev_bind ha rfl, update_head l,
      if_neg (by simp)]

/-- The state with a new node, not yet in the list. -/
def State.fresh (s : State α) (a : UInt32) (d : α) : State α :=
  { s with
    live := Function.update s.live a true
    prev := Function.update s.prev a 0
    next := Function.update s.next a 0
    data := Function.update s.data a d }

theorem live_fresh (s : State α) (a : UInt32) (d : α) : (s.fresh a d).live a = true :=
  Function.update_self ..

/-- The new node leaves the others as they are. -/
theorem live_fresh_of_ne (d : α) (hb : b ≠ a) : (s.fresh a d).live b = s.live b :=
  Function.update_of_ne hb ..

theorem prev_fresh_of_ne (d : α) (hb : b ≠ a) : (s.fresh a d).prev b = s.prev b :=
  Function.update_of_ne hb ..

theorem newNode_bind (ha : a ≠ 0) (f : UInt32 → ListM α β) :
    (newNode a d >>= f) s = f a (s.fresh a d) := by
  have hmalloc : malloc a s = .ok a { s with live := Function.update s.live a true } := by
    rw [malloc, if_pos ha]
    rfl
  have hlive : Function.update s.live a true a = true := Function.update_self ..
  apply bind_of_ok
  refine Eq.trans (bind_of_ok hmalloc) ?_
  apply setPrev_bind
  · exact hlive
  apply setNext_bind
  · exact hlive
  exact setData_bind hlive rfl

/-- Without memory, `new_node` writes through `NULL`. -/
theorem newNode_null (hnull : s.live 0 = false) : newNode 0 d s = .halt .fault s := by
  have hderef : deref 0 s = .halt .fault s := by
    show (if s.live 0 then pure s else halt .fault : ListM α (State α)) s = _
    rw [hnull]
    rfl
  have hmalloc : malloc 0 s = .ok 0 s := rfl
  have hset : setPrev 0 0 s = .halt .fault s := bind_of_halt hderef
  rw [newNode, bind_of_ok hmalloc, bind_of_halt hset]

theorem listAddNode_eq (h : s.Holds l) (ha : s.live a = false) :
    listAddNode a (s.fresh a d) = .ok () (s.inserted l.addrs [] a d) := by
  have hhead : (s.fresh a d).head = l.addrs.headD 0 := h.head
  have htail : (s.fresh a d).tail = l.addrs.getLastD 0 := h.tail
  have hzero := h.zero_notMem
  have hlive := h.live
  obtain hl | ⟨l', b, hl⟩ := l.addrs.eq_nil_or_concat'
  · rw [hl, List.headD_nil] at hhead
    rw [hl, listAddNode, read_bind, if_pos hhead]
    have hstate : { s.fresh a d with head := a, tail := a, numItems := s.numItems + 1 } =
        s.inserted [] [] a d := by
      simp [State.inserted, State.fresh]
    exact congrArg (Outcome.ok ()) hstate
  · rw [hl] at hhead htail hzero hlive ⊢
    have hb := hlive b List.mem_append_cons_self
    have hba := ne_of_live hb ha
    have hhead0 : (s.fresh a d).head ≠ 0 := by
      rw [hhead, Ne, headD_eq_null hzero]
      simp
    rw [List.getLastD_concat] at htail
    rw [listAddNode, read_bind, if_neg hhead0, htail]
    apply setPrev_bind
    · exact live_fresh s a d
    apply setNext_bind
    · exact (live_fresh_of_ne d hba).trans hb
    have hstate : { s.fresh a d with
        prev := Function.update (s.fresh a d).prev a b
        next := Function.update (s.fresh a d).next b a
        tail := a
        numItems := s.numItems + 1 } = s.inserted (l' ++ [b]) [] a d := by
      simp only [State.inserted, State.fresh, ← update_getLast, Function.update_comm hba]
      simp
    exact congrArg (Outcome.ok ()) hstate

theorem listInsertBefore_eq {d' : α} (h : s.Holds (l₁ ++ (b, d') :: l₂)) (ha : s.live a = false)
    (ha0 : a ≠ 0) : listInsertBefore a b d s = .ok a (s.inserted l₁.addrs (b :: l₂.addrs) a d) := by
  have haddrs : (l₁ ++ (b, d') :: l₂).addrs = l₁.addrs ++ b :: l₂.addrs := List.map_append
  obtain ⟨hlinked, -, -, -, -, hlive, hnull, -⟩ := h
  rw [haddrs] at hlinked hlive
  have hb := hlive b List.mem_append_cons_self
  have hba := ne_of_live hb ha
  have hfresh (x) (hx : x ∈ l₁.addrs ++ b :: l₂.addrs) : (s.fresh a d).live x = true :=
    (live_fresh_of_ne d (ne_of_live (hlive x hx) ha)).trans (hlive x hx)
  have hfresh_b := hfresh b List.mem_append_cons_self
  have hprev : (s.fresh a d).prev b = l₁.addrs.getLastD 0 :=
    (prev_fresh_of_ne d hba).trans hlinked.at.1
  refine Eq.trans (newNode_bind ha0 _) ?_
  rw [if_neg ha0, if_neg (ne_of_live hb hnull)]
  apply deref_bind
  · exact hfresh_b
  rw [hprev]
  apply setNext_or_head
  · exact fun x hx => hfresh x (List.mem_append_left _ hx)
  · exact (live_fresh_of_ne d ha0.symm).trans hnull
  apply deref_bind
  · exact hfresh_b
  apply setPrev_bind
  · exact live_fresh s a d
  apply setNext_bind
  · exact live_fresh s a d
  apply setPrev_bind
  · exact hfresh_b
  have hstate : { s.fresh a d with
      prev := Function.update (Function.update (s.fresh a d).prev a ((s.fresh a d).prev b)) b a
      next := Function.update
        (fun x => if l₁.addrs.getLast? = some x then a else (s.fresh a d).next x) a b
      head := if l₁.addrs = [] then a else s.head
      numItems := s.numItems + 1 } = s.inserted l₁.addrs (b :: l₂.addrs) a d := by
    rw [hprev]
    simp only [State.inserted, State.fresh, ← update_head, Function.update_comm hba.symm,
      Function.update_idem]
    congr 1
    funext x
    by_cases hx : x = a
    · rw [hx, Function.update_self, Function.update_self]
      rfl
    · simp [Function.update_of_ne hx]
  exact congrArg (Outcome.ok a) hstate

theorem listDel_eq (h : s.Holds (l₁ ++ (a, d) :: l₂)) :
    listDel a s = .ok () (s.removed l₁.addrs l₂.addrs a) := by
  have haddrs : (l₁ ++ (a, d) :: l₂).addrs = l₁.addrs ++ a :: l₂.addrs := List.map_append
  obtain ⟨hlinked, -, -, -, -, hlive, hnull, -⟩ := h
  rw [haddrs] at hlinked hlive
  obtain ⟨hprev, hnext⟩ := hlinked.at
  have hlive_a := hlive a List.mem_append_cons_self
  have hlive₁ (x) (hx : x ∈ l₁.addrs) : s.live x = true := hlive x (List.mem_append_left _ hx)
  have hlive₂ (x) (hx : x ∈ l₂.addrs) : s.live x = true :=
    hlive x (List.mem_append_right _ (List.mem_cons_of_mem _ hx))
  apply deref_bind
  · exact hlive_a
  rw [hprev, hnext]
  apply setNext_or_head
  · exact hlive₁
  · exact hnull
  apply setPrev_or_tail
  · exact hlive₂
  · exact hnull
  cases hfree : s.freeFunction with
  | false =>
    rw [State.removed, hfree]
    rfl
  | true =>
    show (deref a >>= _) _ = _
    apply deref_bind
    · exact hlive_a
    rw [State.removed, hfree]
    rfl

/-! ### Runs -/

theorem exists_split (ha : a ∈ l.addrs) : ∃ (l₁ l₂ : Items α) (d : α), l = l₁ ++ (a, d) :: l₂ := by
  obtain ⟨⟨a, d⟩, hmem, rfl⟩ := List.mem_map.mp ha
  obtain ⟨l₁, l₂, rfl⟩ := List.append_of_mem hmem
  exact ⟨l₁, l₂, d, rfl⟩

/-- An address tells where the sequence is cut. -/
theorem State.Holds.split (h : s.Holds (l₁ ++ (a, d) :: l₂)) :
    (∀ x ∈ l₁, x.1 ≠ a) ∧ ∀ x ∈ l₂, x.1 ≠ a := by
  have hnodup := h.nodup
  rw [Items.addrs, List.map_append, List.map_cons, List.nodup_middle, List.nodup_cons] at hnodup
  obtain ⟨hmem, -⟩ := hnodup
  constructor
  · intro x hx hxa
    exact hmem (List.mem_append_left _ (List.mem_map.mpr ⟨x, hx, hxa⟩))
  · intro x hx hxa
    exact hmem (List.mem_append_right _ (List.mem_map.mpr ⟨x, hx, hxa⟩))

theorem apply_insertBefore {d' : α} (h : s.Holds (l₁ ++ (b, d') :: l₂)) :
    Op.apply (.insertBefore a b d) (l₁ ++ (b, d') :: l₂) = l₁ ++ (a, d) :: (b, d') :: l₂ := by
  have hb : b ∈ (l₁ ++ (b, d') :: l₂).addrs := List.mem_map.mpr ⟨_, List.mem_append_cons_self, rfl⟩
  have hb0 := ne_of_live (h.live b hb) h.null
  have hl₁ : ∀ x ∈ l₁, decide (x.1 ≠ b) = true := fun x hx => decide_eq_true (h.split.1 x hx)
  rw [Op.apply, if_neg hb0, List.takeWhile_append_of_pos hl₁, List.dropWhile_append_of_pos hl₁]
  simp

theorem apply_del (h : s.Holds (l₁ ++ (a, d) :: l₂)) :
    Op.apply (.del a) (l₁ ++ (a, d) :: l₂) = l₁ ++ l₂ := by
  obtain ⟨hl₁, hl₂⟩ := h.split
  rw [Op.apply, List.filter_append, List.filter_cons_of_neg (by simp),
    List.filter_eq_self.mpr fun x hx => decide_eq_true (hl₁ x hx),
    List.filter_eq_self.mpr fun x hx => decide_eq_true (hl₂ x hx)]

theorem listAdd_eq (h : s.Holds l) (ha : s.live a = false) (ha0 : a ≠ 0) :
    listAdd a d s = .ok a (s.inserted l.addrs [] a d) :=
  (newNode_bind ha0 _).trans (bind_of_ok (listAddNode_eq h ha))

/-- Before `NULL` is at the end. -/
theorem listInsertBefore_null (h : s.Holds l) (ha : s.live a = false) (ha0 : a ≠ 0) :
    listInsertBefore a 0 d s = .ok a (s.inserted l.addrs [] a d) := by
  refine (newNode_bind ha0 _).trans ?_
  rw [if_neg ha0, if_pos rfl]
  exact bind_of_ok (listAddNode_eq h ha)

/-- **Calls**: a call for which there is memory returns, and the list is then what the call makes of
the sequence. -/
theorem Op.exec_holds {op : Op α} (h : s.Holds l) (hop : op.Allowed s l)
    (hmem : op.addr? ≠ some 0) : ∃ s', op.exec s = .ok () s' ∧ s'.Holds (op.apply l) := by
  obtain ⟨hfresh, hnode⟩ := hop
  cases op with
  | add a d =>
    have ha := hfresh a rfl
    have ha0 : a ≠ 0 := fun h0 => hmem (congrArg some h0)
    refine ⟨_, bind_of_ok (listAdd_eq h ha ha0), ?_⟩
    exact State.Holds.inserted ((List.append_nil l).symm ▸ h) ha ha0
  | insertBefore a node d =>
    have ha := hfresh a rfl
    have ha0 : a ≠ 0 := fun h0 => hmem (congrArg some h0)
    rcases hnode with rfl | hnode
    · refine ⟨_, bind_of_ok (listInsertBefore_null h ha ha0), ?_⟩
      exact State.Holds.inserted ((List.append_nil l).symm ▸ h) ha ha0
    · obtain ⟨l₁, l₂, d', rfl⟩ := exists_split hnode
      refine ⟨_, bind_of_ok (listInsertBefore_eq h ha ha0), ?_⟩
      rw [apply_insertBefore h]
      exact h.inserted ha ha0
  | del node =>
    obtain ⟨l₁, l₂, d, rfl⟩ := exists_split hnode
    refine ⟨_, listDel_eq h, ?_⟩
    rw [apply_del h]
    exact h.removed

/-- Without memory, a call ends the run. -/
theorem Op.exec_null {op : Op α} (hnull : s.live 0 = false) (hmem : op.addr? = some 0) :
    op.exec s = .halt .fault s := by
  cases op with
  | add a d =>
    cases Option.some.inj hmem
    exact bind_of_halt (bind_of_halt (newNode_null hnull))
  | insertBefore a node d =>
    cases Option.some.inj hmem
    exact bind_of_halt (bind_of_halt (newNode_null hnull))
  | del node => cases hmem

theorem State.Holds.elsewhere (h : s.Holds l) (he : Elsewhere l s s') : s'.Holds l where
  linked := h.linked.congr (fun a ha => (he.nodes a ha).2.1) fun a ha => (he.nodes a ha).2.2.1
  head := he.head.trans h.head
  tail := he.tail.trans h.tail
  numItems := he.numItems.trans h.numItems
  nodup := h.nodup
  live a ha := (he.nodes a ha).1.trans (h.live a ha)
  null := he.null.trans h.null
  data x hx := (he.nodes x.1 (List.mem_map_of_mem hx)).2.2.2.trans (h.data x hx)

/-- **Runs**: the list holds the sequence. -/
theorem Run.holds (h : Run l s) : s.Holds l := by
  induction h with
  | start f hnull h =>
    cases h
    exact ⟨trivial, rfl, rfl, rfl, List.nodup_nil, by simp, hnull, by simp⟩
  | @call l s s' op hrun hop h ih =>
    have hmem : op.addr? ≠ some 0 := by
      intro hmem
      rw [Op.exec_null ih.null hmem] at h
      contradiction
    obtain ⟨s'', hs'', hholds⟩ := Op.exec_holds ih hop hmem
    cases h.symm.trans hs''
    exact hholds
  | elsewhere hrun h ih => exact ih.elsewhere h

end

/-- In every run the links lead through the items both ways, and a call is the one on the sequence
as long as there is memory. -/
theorem run_list {l : Items α} {s : State α} (h : Run l s) :
    (∀ fuel, l.length ≤ fuel → follow 0 s.next fuel s.head = some l.addrs ∧
      follow 0 s.prev fuel s.tail = some l.addrs.reverse) ∧
    (∀ x ∈ l, s.data x.1 = x.2) ∧ s.numItems.toNat = l.length ∧
    (s.head = 0 ↔ l = []) ∧ (s.tail = 0 ↔ l = []) ∧
    ∀ op : Op α, op.Allowed s l → op.addr? ≠ some 0 →
      ∃ s', op.exec s = .ok () s' ∧ Run (op.apply l) s' := by
  have hs := h.holds
  refine ⟨fun fuel hfuel => ⟨?_, ?_⟩, hs.data, ?_, ?_, ?_, fun op hop hmem => ?_⟩
  · rw [hs.head]
    exact hs.linked.follow hs.zero_notMem (by rwa [List.length_map])
  · rw [hs.tail]
    exact hs.linked.follow_back hs.zero_notMem (by rwa [List.length_map])
  · rw [hs.numItems]
    exact UInt32.toNat_ofNat_of_lt' hs.length_lt
  · rw [hs.head, headD_eq_null hs.zero_notMem, List.map_eq_nil_iff]
  · rw [hs.tail, getLastD_eq_null hs.zero_notMem, List.map_eq_nil_iff]
  · obtain ⟨s', hs', -⟩ := Op.exec_holds hs hop hmem
    exact ⟨s', hs', h.call hop hs'⟩

/-- Three calls. -/
theorem run_list_three : ∃ s : State ℕ, Run [(8, 20)] s ∧ follow 0 s.next 1 s.head = some [8] ∧
    follow 0 s.prev 1 s.tail = some [8] := by
  let s : State ℕ := ⟨fun _ => false, fun _ => 0, fun _ => 0, fun _ => 0, 0, 0, 0, false, []⟩
  have hstart : Run [] s := Run.start (s := s) false rfl rfl
  have hadd := @Run.call ℕ _ _ _ (.add 4 10) hstart ⟨by simp [Op.addr?, s], trivial⟩ rfl
  have hinsert :=
    @Run.call ℕ _ _ _ (.insertBefore 8 4 20) hadd ⟨by simp [Op.addr?, s], .inr (by decide)⟩ rfl
  have hmem : (4 : UInt32) ∈ [8, 4] := by decide
  have hdel := @Run.call ℕ _ _ _ (.del 4) hinsert ⟨by simp [Op.addr?], hmem⟩ rfl
  exact ⟨_, hdel, (run_list hdel).1 1 (Nat.le_refl 1)⟩

end Cosiris.Lists
