import Cosiris.Lib.Runs
import Cosiris.Net.Frame

/-!
# The ARP cache

`arp_resolve` of `arp.c`, in two parts: up to its sleep, and after it. Between the two any number
of other calls, replies and seconds may pass, and the call remembers its slot only by index. A
call that is made while another waits for the same address takes a second slot; the entry in slot
0 is not taken for a result; and a slot that went to another address meanwhile is cleared all the
same. In every run without these (`Event.Calm`) the cache is consistent. -/

namespace Cosiris.Arp

open Net

/-- `memset` of an entry. -/
def emptyEntry : ArpEntry := ⟨0, List.replicate 6 0, .free, 0⟩

/-- An entry in use that has not expired. -/
def Live (now : ℕ) (e : ArpEntry) : Prop := e.status ≠ .free ∧ ¬e.expireTs < now

/-- `arp_cache_get_mac`: the new cache, and the entry found. -/
def arpCacheGetMac (now ip : ℕ) : List ArpEntry → List ArpEntry × Option (ℕ × List UInt8)
  | [] => ([], none)
  | e :: es =>
    let e' := e.checkExpired now
    if e'.status = .solved ∧ e'.ip = ip then (e' :: es, some (0, e'.mac))
    else
      let (es', r) := arpCacheGetMac now ip es
      (e' :: es', r.map fun (i, mac) => (i + 1, mac))

/-- The loop of `arp_cache_set_pending`, from index `i`: the new cache, and the slot it picks.
`mid` is not set before an entry below `min` is found. -/
def pickSlot (now : ℕ) : ℕ → ℕ → Option ℕ → List ArpEntry → List ArpEntry × Option ℕ
  | _, _, mid, [] => ([], mid)
  | i, min, mid, e :: es =>
    let e' := e.checkExpired now
    if e'.status = .free then (e' :: es, some i)
    else
      let (es', j) :=
        if e'.expireTs < min then pickSlot now (i + 1) e'.expireTs (some i) es
        else pickSlot now (i + 1) min mid es
      (e' :: es', j)

/-- The entry of an address that is asked for. -/
def pendingEntry (now ip : ℕ) : ArpEntry := ⟨ip, List.replicate 6 0, .pending, (now + 2) % 2 ^ 32⟩

/-- `arp_cache_set_pending`. -/
def arpCacheSetPending (now ip : ℕ) (cache : List ArpEntry) : List ArpEntry × Option ℕ :=
  let (cache', slot) := pickSlot now 0 (2 ^ 32 - 1) none cache
  match slot with
  | none => (cache', none)
  | some j => (cache'.set j (pendingEntry now ip), some j)

/-- The cache, the time, and the calls that sleep, each with its address and its slot. `sent` are
the addresses asked for, `heard` the replies. -/
structure State where
  cache : List ArpEntry
  now : ℕ
  sleeping : ℕ → Option (ℕ × ℕ)
  sent : List ℕ
  heard : List (ℕ × List UInt8)

/-- What a part of `arp_resolve` ends with: 0 with an address, -1, the sleep, or an index that was
never set. -/
inductive Answer where
  | zero (mac : List UInt8)
  | failed
  | asleep
  | undefined
  deriving DecidableEq

def broadcast : ℕ := 0xFFFFFFFF

/-- `arp_cache_get_mac(ip, mac) > 0`. -/
def foundMac : Option (ℕ × List UInt8) → Option (List UInt8)
  | some (i, mac) => if 0 < i then some mac else none
  | none => none

/-- `arp_resolve` up to its sleep. `ready` says that there is a buffer and a device. -/
def arpResolve (task ip : ℕ) (ready : Bool) (s : State) : Answer × State :=
  if ip = broadcast then (.zero (List.replicate 6 0), s)
  else
    let (cache, r) := arpCacheGetMac s.now ip s.cache
    match foundMac r with
    | some mac => (.zero mac, { s with cache := cache })
    | none =>
      if !ready then (.failed, { s with cache := cache })
      else
        let (cache', slot) := arpCacheSetPending s.now ip cache
        match slot with
        | none => (.undefined, { s with cache := cache' })
        | some j =>
          (.asleep, { s with
                      cache := cache', sleeping :=
                        Function.update s.sleeping task (some (ip, j)), sent := s.sent ++ [ip] })

/-- `arp_resolve` after its sleep, for the address `ip` and the slot `i`. -/
def arpWake (task ip i : ℕ) (s : State) : Answer × State :=
  let e := s.cache.getD i emptyEntry
  let s := { s with sleeping := Function.update s.sleeping task none }
  if e.ip = ip ∧ e.status = .solved then (.zero e.mac, s)
  else (.failed, { s with cache := s.cache.set i emptyEntry })

/-- `arp_process` of a reply from `ip`. -/
def arpReply (ip : ℕ) (mac : List UInt8) (s : State) : State :=
  { s with cache := (arpCacheSetMac s.now ip mac s.cache).1, heard := s.heard ++ [(ip, mac)] }

/-- What can happen: time passes, a call of `arp_resolve` begins, a reply comes in, a call goes
on. -/
inductive Event where
  | tick (now : ℕ)
  | resolve (task ip : ℕ) (ready : Bool)
  | reply (ip : ℕ) (mac : List UInt8)
  | wake (task ip i : ℕ)

namespace Event

/-- A task makes one call at a time. -/
def Enabled (s : State) : Event → Prop
  | resolve task _ _ => s.sleeping task = none
  | wake task ip i => s.sleeping task = some (ip, i)
  | _ => True

def exec (s : State) : Event → State
  | tick now => { s with now := now }
  | resolve task ip ready => (arpResolve task ip ready s).2
  | reply ip mac => arpReply ip mac s
  | wake task ip i => (arpWake task ip i s).2

end Event

/-- A step of any run. -/
def Step (s s' : State) : Prop := ∃ e : Event, e.Enabled s ∧ s' = e.exec s

/-- `ARP_CACHE_SIZE`. -/
def cacheSize : ℕ := 32

def init : State := ⟨List.replicate cacheSize emptyEntry, 0, fun _ => none, [], []⟩

/-! ### What the loops do to the cache -/

/-- Every entry is what it was, or free. -/
def Swept (tab tab' : List ArpEntry) : Prop :=
  tab'.length = tab.length ∧ ∀ (i : ℕ) (e : ArpEntry), tab'[i]? = some e → tab[i]? = some e ∨
    e.status = .free

section

variable {now ip i j min : ℕ} {mid slot : Option ℕ} {mac : List UInt8} {e e' : ArpEntry}
    {tab tab' tab'' : List ArpEntry}
  {r : Option (ℕ × List UInt8)} {found : Bool}

theorem Swept.refl : Swept tab tab := ⟨rfl, fun _ _ h => Or.inl h⟩

theorem Swept.trans (h : Swept tab tab') (h' : Swept tab' tab'') : Swept tab tab'' := by
  refine ⟨h'.1.trans h.1, fun i e he => ?_⟩
  rcases h'.2 i e he with h1 | h1
  · exact h.2 i e h1
  · exact Or.inr h1

theorem Swept.cons (he : e' = e ∨ e'.status = .free) (h : Swept tab tab') :
    Swept (e :: tab) (e' :: tab') := by
  refine ⟨congrArg (· + 1) h.1, fun i x hx => ?_⟩
  cases i with
  | zero =>
    cases hx
    rcases he with rfl | he
    · exact Or.inl rfl
    · exact Or.inr he
  | succ i => exact h.2 i x hx

theorem Swept.set_empty : Swept tab (tab.set i emptyEntry) := by
  refine ⟨List.length_set, fun j e he => ?_⟩
  rw [List.getElem?_set] at he
  split_ifs at he with h1 h2
  · cases he
    exact Or.inr rfl
  · exact Or.inl he

theorem checkExpired_cases (now : ℕ) (e : ArpEntry) :
    e.checkExpired now = e ∨ (e.checkExpired now).status = .free := by
  unfold ArpEntry.checkExpired
  split
  · exact Or.inr rfl
  · exact Or.inl rfl

/-- An entry that is left in use has not expired. -/
theorem live_checkExpired (h : (e.checkExpired now).status ≠ .free) :
    Live now e ∧ e.checkExpired now = e := by
  unfold ArpEntry.checkExpired at h ⊢
  split at h
  · exact absurd rfl h
  · rename_i hlt
    exact ⟨⟨h, hlt⟩, if_neg hlt⟩

theorem checkExpired_of_live (h : Live now e) : e.checkExpired now = e := if_neg h.2

theorem getMac_swept (h : arpCacheGetMac now ip tab = (tab', r)) : Swept tab tab' := by
  induction tab generalizing tab' r with
  | nil =>
    cases h
    exact Swept.refl
  | cons e es ih =>
    unfold arpCacheGetMac at h
    dsimp only at h
    split at h
    · cases h
      exact Swept.refl.cons (checkExpired_cases now e)
    · cases h
      exact (ih rfl).cons (checkExpired_cases now e)

/-- What is found is a live entry. -/
theorem getMac_some (h : arpCacheGetMac now ip tab = (tab', some (i, mac))) :
    ∃ e, tab[i]? = some e ∧ Live now e ∧ e.status = .solved ∧ e.ip = ip ∧ e.mac = mac := by
  induction tab generalizing tab' i with
  | nil => cases h
  | cons e es ih =>
    unfold arpCacheGetMac at h
    dsimp only at h
    split at h
    · rename_i he
      cases h
      have hlive := @live_checkExpired now e (by rw [he.1]; decide)
      rw [hlive.2] at he ⊢
      exact ⟨e, rfl, hlive.1, he.1, he.2, rfl⟩
    · cases hr : arpCacheGetMac now ip es with
      | mk es' r =>
        rw [hr] at h
        cases r with
        | none => cases h
        | some p =>
          cases h
          exact ih hr

/-- Nothing is found when there is no live entry; then none that has expired is left. -/
theorem getMac_none (h : arpCacheGetMac now ip tab = (tab', none)) :
    tab' = tab.map (ArpEntry.checkExpired now) ∧ ∀ e ∈ tab, Live now e → e.status = .solved →
      e.ip ≠ ip := by
  induction tab generalizing tab' with
  | nil =>
    cases h
    exact ⟨rfl, fun _ he => by cases he⟩
  | cons e es ih =>
    unfold arpCacheGetMac at h
    dsimp only at h
    split at h
    · cases h
    · rename_i he
      cases hr : arpCacheGetMac now ip es with
      | mk es' r =>
        rw [hr] at h
        cases r with
        | some p => cases h
        | none =>
          cases h
          obtain ⟨hmap, hall⟩ := ih hr
          refine ⟨by rw [List.map_cons, hmap], fun x hx hlive hs hip => ?_⟩
          rcases List.mem_cons.mp hx with rfl | hx
          · rw [checkExpired_of_live hlive] at he
            exact he ⟨hs, hip⟩
          · exact hall x hx hlive hs hip

theorem pickSlot_swept (h : pickSlot now i min mid tab = (tab', slot)) : Swept tab tab' := by
  induction tab generalizing i min mid tab' slot with
  | nil =>
    cases h
    exact Swept.refl
  | cons e es ih =>
    unfold pickSlot at h
    dsimp only at h
    split at h
    · cases h
      exact Swept.refl.cons (checkExpired_cases now e)
    · cases h
      refine Swept.cons (checkExpired_cases now e) ?_
      split
      · exact ih rfl
      · exact ih rfl

/-- A reply sets at most one entry, that of its sender. -/
theorem setMac_spec (h : arpCacheSetMac now ip mac tab = (tab', found)) :
    Swept tab tab' ∨ ∃ tab'' i e, Swept tab tab'' ∧ tab''[i]? = some e ∧ e.ip = ip ∧
      e.status = .pending ∧
      tab' = tab''.set i ⟨ip, mac, .solved, (now + 300) % 2 ^ 32⟩ := by
  induction tab generalizing tab' found with
  | nil =>
    cases h
    exact Or.inl Swept.refl
  | cons e es ih =>
    unfold arpCacheSetMac at h
    dsimp only at h
    split at h
    · rename_i he
      cases h
      exact Or.inr ⟨e.checkExpired now :: es, 0, _, Swept.refl.cons (checkExpired_cases now e), rfl,
        he.1, he.2, rfl⟩
    · cases h
      rcases ih rfl with hs | ⟨tab'', i, x, hs, hx, hip, hst, hc⟩
      · exact Or.inl (hs.cons (checkExpired_cases now e))
      · refine Or.inr ⟨e.checkExpired now :: tab'', i + 1, x,
          hs.cons (checkExpired_cases now e), hx, hip, hst, ?_⟩
        rw [hc, List.set_cons_succ]

end

/-! ### The cache while calls sleep -/

/-- There is one entry for an address; what is resolved was heard; and the slot of a call that
sleeps went to no other address. -/
structure Good (heard : List (ℕ × List UInt8)) (sleeping : ℕ → Option (ℕ × ℕ))
    (tab : List ArpEntry) :
    Prop where
  unique : ∀ (i j : ℕ) (e e' : ArpEntry), tab[i]? = some e → tab[j]? = some e' → e.status ≠ .free →
      e'.status ≠ .free →
    e.ip = e'.ip → i = j
  heard : ∀ (i : ℕ) (e : ArpEntry), tab[i]? = some e → e.status = .solved → (e.ip, e.mac) ∈ heard
  slots : ∀ (t ip i : ℕ) (e : ArpEntry), sleeping t = some (ip, i) → tab[i]? = some e →
      e.status = .free ∨ e.ip = ip

section

variable {heard : List (ℕ × List UInt8)} {sleeping : ℕ → Option (ℕ × ℕ)} {now ip i j task ttl : ℕ}
    {mac : List UInt8}
  {e : ArpEntry} {tab tab' : List ArpEntry}

theorem Good.swept (h : Good heard sleeping tab) (hc : Swept tab tab') :
    Good heard sleeping tab' := by
  have hkeep : ∀ (i : ℕ) (e : ArpEntry), tab'[i]? = some e → e.status ≠ .free →
    tab[i]? = some e := fun i e he hf => (hc.2 i e he).resolve_right hf
  constructor
  · intro i j e e' hi hj hf hf'
    exact h.unique i j e e' (hkeep i e hi hf) (hkeep j e' hj hf') hf hf'
  · intro i e hi hs
    exact h.heard i e (hkeep i e hi (by rw [hs]; decide)) hs
  · intro t ip i e ht hi
    by_cases hf : e.status = .free
    · exact Or.inl hf
    · exact h.slots t ip i e ht (hkeep i e hi hf)

theorem Good.awake (h : Good heard sleeping tab) :
    Good heard (Function.update sleeping task none) tab := by
  refine ⟨h.unique, h.heard, fun t ip i e ht hi => ?_⟩
  by_cases htask : t = task
  · subst htask
    rw [Function.update_self] at ht
    cases ht
  · rw [Function.update_of_ne htask] at ht
    exact h.slots t ip i e ht hi

theorem Good.hear (h : Good heard sleeping tab) (p : ℕ × List UInt8) :
    Good (heard ++ [p]) sleeping tab :=
  ⟨h.unique, fun i e hi hs => List.mem_append_left _ (h.heard i e hi hs), h.slots⟩

/-- Putting in an entry for an address that has none elsewhere. -/
theorem Good.set {x : ArpEntry} (h : Good heard sleeping tab)
    (hother : ∀ (i : ℕ) (e : ArpEntry), tab[i]? = some e → e.status ≠ .free →
    e.ip = x.ip → i = j) (hsleep : ∀ t ip, sleeping t = some (ip, j) → x.ip = ip)
      (hheard : x.status = .solved → (x.ip, x.mac) ∈ heard) :
    Good heard sleeping (tab.set j x) := by
  have hcases : ∀ {i : ℕ} {e : ArpEntry}, (tab.set j x)[i]? = some e → (i = j ∧ e = x) ∨
    (i ≠ j ∧ tab[i]? = some e) := by
    intro i e he
    rw [List.getElem?_set] at he
    split_ifs at he with h1 h2
    · cases he
      exact Or.inl ⟨h1.symm, rfl⟩
    · exact Or.inr ⟨Ne.symm h1, he⟩
  constructor
  · intro i k e e' hi hk hf hf' hip
    rcases hcases hi with ⟨hij, he⟩ | ⟨-, hi'⟩ <;> rcases hcases hk with ⟨hkj, he'⟩ | ⟨-, hk'⟩
    · exact hij.trans hkj.symm
    · rw [he] at hip
      exact hij.trans (hother k e' hk' hf' hip.symm).symm
    · rw [he'] at hip
      exact (hother i e hi' hf hip).trans hkj.symm
    · exact h.unique i k e e' hi' hk' hf hf' hip
  · intro i e hi hs
    rcases hcases hi with ⟨rfl, rfl⟩ | ⟨-, hi⟩
    · exact hheard hs
    · exact h.heard i e hi hs
  · intro t ip i e ht hi
    rcases hcases hi with ⟨rfl, rfl⟩ | ⟨-, hi⟩
    · exact Or.inr (hsleep t ip ht)
    · exact h.slots t ip i e ht hi

/-- A reply resolves the entry of its sender. -/
theorem Good.solve (h : Good heard sleeping tab) (he : tab[i]? = some e) (hip : e.ip = ip)
    (hst : e.status = .pending) :
    Good (heard ++ [(ip, mac)]) sleeping (tab.set i ⟨ip, mac, .solved, ttl⟩) := by
  have hf : e.status ≠ .free := by rw [hst]; decide
  refine (h.hear (ip, mac)).set (fun k x hx hxf hxip => ?_) (fun t ip' ht => ?_) fun _ => ?_
  · exact h.unique k i x e hx he hxf hf (hxip.trans hip.symm)
  · exact hip.symm.trans ((h.slots t ip' i e ht he).resolve_left hf)
  · exact List.mem_append_right _ (List.mem_singleton_self _)

/-- A call takes a slot that no call for another address sleeps on. -/
theorem Good.ask (h : Good heard sleeping tab)
    (hother : ∀ (i : ℕ) (e : ArpEntry), tab[i]? = some e → e.status ≠ .free → e.ip = ip → i = j)
    (hsleep : ∀ t ip', sleeping t = some (ip', j) → ip' = ip) :
    Good heard (Function.update sleeping task (some (ip, j)))
      (tab.set j (pendingEntry now ip)) := by
  have hset : Good heard sleeping (tab.set j (pendingEntry now ip)) :=
    h.set hother (fun t ip' ht => (hsleep t ip' ht).symm) fun hs => by cases hs
  refine ⟨hset.unique, hset.heard, fun t ip' i e ht hi => ?_⟩
  by_cases htask : t = task
  · subst htask
    rw [Function.update_self] at ht
    cases ht
    rw [List.getElem?_set_self'] at hi
    obtain ⟨x, -, rfl⟩ := Option.map_eq_some_iff.mp hi
    exact Or.inr rfl
  · rw [Function.update_of_ne htask] at ht
    exact hset.slots t ip' i e ht hi

end

/-! ### Runs -/

/-- The slot that `arp_cache_set_pending` picks when `ip` is not found. -/
def State.slot (s : State) (ip : ℕ) : Option ℕ :=
  (arpCacheSetPending s.now ip (arpCacheGetMac s.now ip s.cache).1).2

/-- No resolved entry of the address is in slot 0; and if the network has to be asked, a slot is
picked, no other slot holds an entry of the address, and no call for another address sleeps on it.
-/
def Event.Calm (s : State) : Event → Prop
  | resolve _ ip ready => ip ≠ broadcast →
    (∀ e, s.cache[0]? = some e → Live s.now e → e.ip = ip → e.status ≠ .solved) ∧
    (ready = true → (∀ e ∈ s.cache, Live s.now e → e.status = .solved → e.ip ≠ ip) →
      ∃ j, s.slot ip =
      some j ∧
      (∀ (i : ℕ) (e : ArpEntry), s.cache[i]? = some e → Live s.now e → e.ip = ip → i = j) ∧
      ∀ t ip', s.sleeping t = some (ip', j) → ip' = ip)
  | _ => True

/-- A step of a calm run. -/
def CalmStep (s s' : State) : Prop := ∃ e : Event, e.Enabled s ∧ e.Calm s ∧ s' = e.exec s

/-- The state of a run in which the cache is consistent. -/
def State.Sound (s : State) : Prop := Good s.heard s.sleeping s.cache

section

variable {s : State} {task ip i : ℕ} {ready : Bool} {mac : List UInt8} {e : ArpEntry}

/-- What is left when the address is not found is live. -/
theorem mem_map_checkExpired {now : ℕ} {tab : List ArpEntry}
    (h : (tab.map (ArpEntry.checkExpired now))[i]? = some e)
    (hf : e.status ≠ .free) : tab[i]? = some e ∧ Live now e := by
  rw [List.getElem?_map] at h
  obtain ⟨x, hx, rfl⟩ := Option.map_eq_some_iff.mp h
  obtain ⟨hlive, heq⟩ := live_checkExpired hf
  rw [heq]
  exact ⟨hx, hlive⟩

/-- A call that asks the network. -/
theorem Good.pending {now : ℕ} {heard : List (ℕ × List UInt8)} {sleeping : ℕ → Option (ℕ × ℕ)}
    {tab tab' : List ArpEntry} {j : ℕ}
    (h : Good heard sleeping tab)
    (hc : arpCacheSetPending now ip (tab.map (ArpEntry.checkExpired now)) = (tab', some j))
    (hmap : Swept tab (tab.map (ArpEntry.checkExpired now)))
    (hother : ∀ (i : ℕ) (e : ArpEntry), tab[i]? = some e → Live now e → e.ip = ip → i = j)
    (hsleep : ∀ t ip', sleeping t = some (ip', j) → ip' = ip) :
    Good heard (Function.update sleeping task (some (ip, j))) tab' := by
  unfold arpCacheSetPending at hc
  cases hp : pickSlot now 0 (2 ^ 32 - 1) none (tab.map (ArpEntry.checkExpired now)) with
  | mk tab'' slot =>
    rw [hp] at hc
    have hswept := pickSlot_swept hp
    cases slot with
    | none => cases hc
    | some k =>
      cases hc
      refine ((h.swept hmap).swept hswept).ask (fun i e hi hf hip => ?_) hsleep
      obtain ⟨hi', hlive⟩ := mem_map_checkExpired ((hswept.2 i e hi).resolve_right hf) hf
      exact hother i e hi' hlive hip

theorem State.Sound.resolve (h : s.Sound) (hcalm : (Event.resolve task ip ready).Calm s) :
    (arpResolve task ip ready s).2.Sound := by
  unfold arpResolve
  by_cases hb : ip = broadcast
  · rw [if_pos hb]
    exact h
  rw [if_neg hb]
  obtain ⟨hzero, hask⟩ := hcalm hb
  cases hr : arpCacheGetMac s.now ip s.cache with
  | mk tab r =>
    have hswept := getMac_swept hr
    rcases r with _ | ⟨i, mac⟩
    · obtain ⟨rfl, hnone⟩ := getMac_none hr
      cases ready with
      | false => exact h.swept hswept
      | true =>
        obtain ⟨j, hj, hother, hsleep⟩ := hask rfl hnone
        cases hp : arpCacheSetPending s.now ip (s.cache.map (ArpEntry.checkExpired s.now)) with
        | mk tab' slot =>
          rw [State.slot, hr, hp] at hj
          cases hj
          dsimp only [foundMac]
          rw [hp]
          exact Good.pending h hp hswept hother hsleep
    · obtain ⟨e, he, hlive, hs, hip, -⟩ := getMac_some hr
      have hi : 0 < i := by
        rw [Nat.pos_iff_ne_zero]
        rintro rfl
        exact hzero e he hlive hip hs
      dsimp only [foundMac]
      rw [if_pos hi]
      exact h.swept hswept

theorem State.Sound.wake (h : s.Sound) : (arpWake task ip i s).2.Sound := by
  unfold arpWake
  dsimp only
  split
  · exact Good.awake h
  · exact (Good.awake h).swept Swept.set_empty

theorem State.Sound.reply (h : s.Sound) : (arpReply ip mac s).Sound := by
  show Good (s.heard ++ [(ip, mac)]) s.sleeping (arpCacheSetMac s.now ip mac s.cache).1
  rcases setMac_spec (Prod.mk.eta (p := arpCacheSetMac s.now ip mac s.cache)).symm with hs
    | ⟨tab, k, e, hs, he, hip, hst, hc⟩
  · exact (h.hear _).swept hs
  · rw [hc]
    exact (h.swept hs).solve he hip hst

theorem Event.exec_sound (h : s.Sound) (ev : Event) (hcalm : ev.Calm s) : (ev.exec s).Sound := by
  cases ev with
  | tick now => exact h
  | resolve task ip ready => exact h.resolve hcalm
  | reply ip mac => exact h.reply
  | wake task ip i => exact h.wake

theorem init_sound : init.Sound := by
  have hfree : ∀ (i : ℕ) (e : ArpEntry), init.cache[i]? = some e → e.status = .free := by
    intro i e he
    have hmem := List.mem_of_getElem? he
    rw [List.eq_of_mem_replicate hmem]
    rfl
  refine ⟨fun i j e e' hi _ hf => absurd (hfree i e hi) hf, fun i e hi hs =>
    ?_, fun t ip i e ht => by cases ht⟩
  rw [hfree i e hi] at hs
  cases hs

/-- A resolved entry is used again. -/
theorem State.Sound.reuse (h : s.Sound) (hcalm : (Event.resolve task ip ready).Calm s)
    (hb : ip ≠ broadcast)
    (he : s.cache[i]? = some e) (hlive : Live s.now e) (hip : e.ip = ip) (hs : e.status = .solved) :
    (arpResolve task ip ready s).1 = .zero e.mac ∧
      (arpResolve task ip ready s).2.sent = s.sent := by
  unfold arpResolve
  rw [if_neg hb]
  cases hr : arpCacheGetMac s.now ip s.cache with
  | mk tab r =>
    rcases r with _ | ⟨k, mac⟩
    · exact absurd hip ((getMac_none hr).2 e (List.mem_of_getElem? he) hlive hs)
    · obtain ⟨e', he', hlive', hs', hip', rfl⟩ := getMac_some hr
      have hki := h.unique k i e' e he' he hlive'.1 hlive.1 (hip'.trans hip.symm)
      subst hki
      have heq := Option.some.inj (he'.symm.trans he)
      subst heq
      have hk : 0 < k := by
        rw [Nat.pos_iff_ne_zero]
        rintro rfl
        exact (hcalm hb).1 e' he hlive hip hs
      dsimp only [foundMac]
      rw [if_pos hk]
      exact ⟨rfl, rfl⟩

/-- A call that ends before its sleep with an address has it from a reply. -/
theorem State.Sound.resolve_heard (h : s.Sound) (hb : ip ≠ broadcast)
    (ha : (arpResolve task ip ready s).1 = .zero mac) :
    (ip, mac) ∈ s.heard := by
  unfold arpResolve at ha
  rw [if_neg hb] at ha
  cases hr : arpCacheGetMac s.now ip s.cache with
  | mk tab r =>
    rw [hr] at ha
    dsimp only at ha
    cases hf : foundMac r with
    | some m =>
      rw [hf] at ha
      cases ha
      rcases r with _ | ⟨k, m⟩
      · cases hf
      · unfold foundMac at hf
        dsimp only at hf
        split at hf
        · cases hf
          obtain ⟨e, he, -, hs, rfl, rfl⟩ := getMac_some hr
          exact h.heard k e he hs
        · cases hf
    | none =>
      rw [hf] at ha
      dsimp only at ha
      split at ha
      · cases ha
      · split at ha <;> cases ha

theorem State.Sound.wake_heard (h : s.Sound) (ha : (arpWake task ip i s).1 = .zero mac) :
    (ip, mac) ∈ s.heard := by
  unfold arpWake at ha
  dsimp only at ha
  split at ha
  · rename_i hs
    cases ha
    rw [List.getD_eq_getElem?_getD] at hs ⊢
    cases he : s.cache[i]? with
    | none =>
      rw [he] at hs
      cases hs.2
    | some e =>
      rw [he] at hs
      obtain ⟨rfl, hst⟩ := hs
      exact h.heard i e he hst
  · cases ha

/-- A call that fails clears no entry of another address. -/
theorem State.Sound.wake_keeps (h : s.Sound) (hsl : s.sleeping task = some (ip, i)) {j : ℕ}
    (he : s.cache[j]? = some e)
    (hf : e.status ≠ .free) (hip : e.ip ≠ ip) : (arpWake task ip i s).2.cache[j]? = some e := by
  have hij : i ≠ j := by
    rintro rfl
    rcases h.slots task ip i e hsl he with h1 | h1
    · exact hf h1
    · exact hip h1
  unfold arpWake
  dsimp only
  split
  · exact he
  · rw [← he]
    exact List.getElem?_set_ne hij

end

/-- **The ARP cache is consistent** in every calm run: there is one live entry for an address; a
resolved entry is used again and nothing is sent; a call returns 0 only with an address that a
reply gave for it; and a call that fails clears no entry of another address. -/
theorem arp_cache_consistent (s : State) (h : Reach CalmStep init s) :
    (∀ (i j : ℕ) (e e' : ArpEntry), s.cache[i]? = some e → s.cache[j]? = some e' → Live s.now e →
      Live s.now e' →
      e.ip = e'.ip → i = j) ∧
    (∀ (task ip : ℕ) (ready : Bool), (Event.resolve task ip ready).Calm s → ip ≠ broadcast →
      ∀ (i : ℕ) (e : ArpEntry), s.cache[i]? = some e → Live s.now e → e.ip = ip →
        e.status = .solved →
        (arpResolve task ip ready s).1 = .zero e.mac ∧
          (arpResolve task ip ready s).2.sent = s.sent) ∧
    (∀ (task ip : ℕ) (ready : Bool) (mac : List UInt8), ip ≠ broadcast →
      (arpResolve task ip ready s).1 = .zero mac →
      (ip, mac) ∈ s.heard) ∧
    (∀ (task ip i : ℕ) (mac : List UInt8), s.sleeping task = some (ip, i) →
      (arpWake task ip i s).1 =
      .zero mac →
      (ip, mac) ∈ s.heard) ∧
    (∀ (task ip i : ℕ), s.sleeping task = some (ip, i) → (arpWake task ip i s).1 = .failed →
      ∀ (j : ℕ) (e : ArpEntry), s.cache[j]? = some e → e.status ≠ .free → e.ip ≠ ip →
        (arpWake task ip i s).2.cache[j]? = some e) := by
  have hs : s.Sound := by
    refine Reach.invariant (I := State.Sound) ?_ init_sound h
    rintro t t' ht ⟨ev, -, hcalm, rfl⟩
    exact ev.exec_sound ht hcalm
  refine ⟨?_, ?_, ?_, ?_, ?_⟩
  · intro i j e e' hi hj hl hl' hip
    exact hs.unique i j e e' hi hj hl.1 hl'.1 hip
  · intro task ip ready hcalm hb i e he hlive hip hst
    exact hs.reuse hcalm hb he hlive hip hst
  · intro task ip ready mac hb ha
    exact hs.resolve_heard hb ha
  · intro task ip i mac _ ha
    exact hs.wake_heard ha
  · intro task ip i hsl _ j e he hf hip
    exact hs.wake_keeps hsl he hf hip

/-- The first call of all, for the address 1, and a reply to it. -/
def answered : State :=
  (Event.reply 1 (List.replicate 6 7)).exec ((Event.resolve 0 1 true).exec init)

theorem arp_cache_consistent_answered :
    (arpWake 0 1 0 answered).1 = .zero (List.replicate 6 7) ∧
      (1, List.replicate 6 7) ∈ answered.heard := by
  have hanswer : (arpWake 0 1 0 answered).1 = .zero (List.replicate 6 7) := by decide
  refine ⟨hanswer, (arp_cache_consistent answered ?_).2.2.2.1 0 1 0 _ rfl hanswer⟩
  have hfree : ∀ e ∈ init.cache, ¬Live init.now e := by
    intro e he hlive
    rw [List.eq_of_mem_replicate he] at hlive
    exact hlive.1 rfl
  refine (Relation.ReflTransGen.refl.tail ⟨.resolve 0 1 true, rfl, fun _ => ⟨?_, ?_⟩, rfl⟩).tail
    ⟨.reply 1 _, trivial, trivial, rfl⟩
  · intro e he hlive
    exact absurd hlive (hfree e (List.mem_of_getElem? he))
  · intro _ _
    refine ⟨0, rfl, fun i e he hlive =>
      absurd hlive (hfree e (List.mem_of_getElem? he)), fun t ip' ht => by cases ht⟩

instance (now : ℕ) (e : ArpEntry) : Decidable (Live now e) := inferInstanceAs (Decidable (_ ∧ _))

/-- The first address of all is in slot 0: the next call for it asks again, and there are two
entries for it then. -/
theorem slot_zero_not_reused : ∃ s, Reach Step init s ∧
    (∃ e, s.cache[0]? = some e ∧ Live s.now e ∧ e.ip = 1 ∧ e.status = .solved) ∧
    (arpResolve 1 1 true s).1 = .asleep ∧ (arpResolve 1 1 true s).2.sent = [1, 1] ∧
    ∃ e e', (arpResolve 1 1 true s).2.cache[0]? = some e ∧
      (arpResolve 1 1 true s).2.cache[1]? = some e' ∧
      Live s.now e ∧ Live s.now e' ∧ e.ip = 1 ∧ e'.ip = 1 := by
  have hanswered : Reach Step init answered :=
    (Relation.ReflTransGen.refl.tail ⟨.resolve 0 1 true, rfl, rfl⟩).tail ⟨.reply 1 _, trivial, rfl⟩
  exact ⟨(Event.wake 0 1 0).exec answered, hanswered.tail ⟨.wake 0 1 0, rfl, rfl⟩,
    ⟨_, rfl, by decide, rfl, rfl⟩, by decide,
    by decide, _, _, rfl, rfl, by decide, by decide, rfl, rfl⟩

end Cosiris.Arp
