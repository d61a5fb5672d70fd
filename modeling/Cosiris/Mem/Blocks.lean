import Cosiris.Mem.Frames

/-!
# Blocks of frames

`phys_block_alloc` looks for frames that follow each other on the list of free frames, from the
highest to the lowest, and takes them off the list. It never does all that it should
(`phys_block_alloc_never`): it does not count the frames that it takes, and when it finds none
it does not return 0, but stops at an assertion.
-/

namespace Cosiris.Mem

open Prog

/-! ### The loops -/

/-- The loop that looks for a free frame `hi` whose next one is the frame below it. Without fuel
there is no result. -/
def seekRun : ℕ → ℕ → ℕ → MemM (Option (ℕ × ℕ))
  | 0, _, _ => return none
  | fuel + 1, prev, hi =>
    if hi > 0 then do
      tempMap hi
      let next ← vread resvPage 0
      if hi - 4096 = next then return some (prev, hi) else seekRun fuel hi next
    else return some (prev, hi)

/-- `--frames` of an `int`. -/
def decInt (frames : ℤ) : ℤ := Int.bmod (frames - 1) (2 ^ 32)

/-- The loop that follows the frames from `low` downwards: `hi`, `low` and `frames` when it ends,
and `found`. -/
def followRun (size : ℕ) : ℕ → ℕ → ℕ → ℤ → MemM (Option (ℕ × ℕ × ℤ × Bool))
  | 0, _, _, _ => return none
  | fuel + 1, hi, low, frames =>
    if low > 0 then do
      tempMap low
      let next ← vread resvPage 0
      if low - 4096 = next then
        if decInt frames = 1 then return some (hi, next, decInt frames, true)
        else followRun size fuel hi next (decInt frames)
      else return some (low, low, (size / 4096 : ℕ), false)
    else return some (hi, low, frames, false)

/-- The outer loop: `prev` and `low` when a block is found. -/
def searchBlock (size : ℕ) : ℕ → ℕ → ℕ → ℤ → MemM (Option (ℕ × ℕ))
  | 0, _, _, _ => return none
  | fuel + 1, prev, hi, frames => do
    let start ← seekRun fuel prev hi
    match start with
    | none => return none
    | some (prev, hi) => do
      kassert "hi > 0" (decide (hi > 0))
      let run ← followRun size fuel hi hi frames
      match run with
      | none => return none
      | some (hi, low, frames, found) =>
        if found then return some (prev, low) else searchBlock size fuel prev hi frames

/-- `phys_block_alloc`. -/
def physBlockAlloc (fuel size : ℕ) : MemM (Option ℕ) := do
  let m ← read
  let block ← searchBlock size fuel 0 m.lastFreePage (size / 4096 : ℕ)
  match block with
  | none => return none
  | some (prev, low) => do
    tempMap low
    let next ← vread resvPage 0
    if prev ≠ 0 then do
      tempMap prev
      vwrite resvPage 0 next
    else modify fun m => { m with lastFreePage := next }
    tempUnmap
    return some low

/-! ### The list -/

/-- A word of another frame written. -/
theorem Rooted.setWord {m : Machine} {t v f : ℕ} (h : Rooted m t v) (hd : f ≠ m.dir) (ht : f ≠ t)
    (w x : ℕ) :
    Rooted (m.withMem (m.mem.set f w x)) t v := h.fill hd ht _

section

variable {m m₀ : Machine} {t v f fuel prev hi low size : ℕ} {frames : ℤ} {free : List ℕ}
    {E : Halt → Machine → Prop}

theorem FreeList.next {mem : Memory} {last : ℕ} (h : FreeList mem last free) (hf : f ∈ free) :
    mem f 0 = 0 ∨ ∃ g ∈ free, mem f 0 = 4096 * g := by
  induction free generalizing last with
  | nil => cases hf
  | cons a fs ih =>
    rcases List.mem_cons.mp hf with rfl | hf
    · cases fs with
      | nil => exact .inl h.2.2
      | cons b fs => exact .inr ⟨b, by simp, h.2.2.1⟩
    · refine (ih h.2.2 hf).imp id ?_
      rintro ⟨g, hg, e⟩
      exact ⟨g, List.mem_cons_of_mem _ hg, e⟩

/-- Two lists of the same frames have the same links. -/
theorem FreeList.link_eq {mem mem' : Memory} {last last' : ℕ} (h : FreeList mem last free)
    (h' : FreeList mem' last' free) (hf : f ∈ free) : mem f 0 = mem' f 0 := by
  induction free generalizing last last' with
  | nil => cases hf
  | cons a fs ih =>
    rcases List.mem_cons.mp hf with rfl | hf
    · cases fs with
      | nil => exact h.2.2.trans h'.2.2.symm
      | cons b fs => exact h.2.2.1.trans h'.2.2.1.symm
    · exact ih h.2.2 h'.2.2 hf

theorem FreeList.last_eq {mem mem' : Memory} {last last' : ℕ} (h : FreeList mem last free)
    (h' : FreeList mem' last' free) : last = last' := by
  cases free with
  | nil => exact h.trans h'.symm
  | cons a fs => exact h.1.trans h'.1.symm

/-- Nothing has changed but what is mapped in the reserved page. -/
def Scanned (m₀ : Machine) (t : ℕ) (m : Machine) : Prop := ∃ v, m = m₀.withMem (m₀.mem.set t 1022 v)

/-- A frame on the list, by its address, or its end. -/
def OnList (free : List ℕ) (addr : ℕ) : Prop := addr = 0 ∨ ∃ f ∈ free, addr = 4096 * f

/-- `prev` is the frame before `hi` on the list, or 0 if `hi` is the first one. -/
def Follows (m₀ : Machine) (free : List ℕ) (prev hi : ℕ) : Prop :=
  (prev = 0 ∧ hi = m₀.lastFreePage) ∨ ∃ p ∈ free, prev = 4096 * p ∧ p ≠ 0 ∧ m₀.mem p 0 = hi

/-- The link of a frame is read through the reserved page. -/
theorem Scanned.wp_next {α : Type} {Q : α → Machine → Prop} {k : ℕ → MemM α} (hr : Rooted m₀ t v)
    (h : Scanned m₀ t m)
    (hk : ∀ m', Scanned m₀ t m' → wp (k (m₀.mem f 0)) Q E m') :
    wp (do tempMap (4096 * f); let next ← vread resvPage 0; k next) Q E m := by
  obtain ⟨w, rfl⟩ := h
  have hset : (m₀.mem.set t 1022 w).set t 1022 (4096 * f + 3) =
    m₀.mem.set t 1022 (4096 * f + 3) := by
    simp only [Memory.set, Function.update_idem, Function.update_self]
  rw [wp_bind, (hr.setResv w).wp_tempMap, wp_bind,
    wp_vread ((hr.setResv w).setResv (4096 * f + 3)).walk_resv]
  simp only [Machine.withMem_mem, Machine.withMem_withMem, hset]
  rw [Memory.set_word_ne (by decide)]
  exact hk _ ⟨_, rfl⟩

/-- The search goes on from `hi`: `prev` is the frame before it, unless `hi` is not the start of a
run, and so is left at once. -/
def Resumes (m₀ : Machine) (free : List ℕ) (prev hi : ℕ) : Prop :=
  OnList free hi ∧ (Follows m₀ free prev hi ∨ ∃ f ∈ free, hi = 4096 * f ∧ hi - 4096 ≠ m₀.mem f 0)

/-- The first inner loop ends at the start of a run, with the frame before it, or at the end of
the list. -/
theorem seekRun_spec (hr : Rooted m₀ t v) (hl : FreeList m₀.mem m₀.lastFreePage free)
    (hs : Scanned m₀ t m)
    (h : Resumes m₀ free prev hi) :
    wp (seekRun fuel prev hi) (fun r m' => Scanned m₀ t m' ∧
      ∀ p, r = some p → p.2 ≠ 0 → Follows m₀ free p.1 p.2 ∧ OnList free p.2) E m := by
  induction fuel generalizing prev hi m with
  | zero => exact ⟨hs, fun p hp => by cases hp⟩
  | succ fuel ih =>
    obtain ⟨hon, hfollow⟩ := h
    obtain rfl | ⟨f, hf, rfl⟩ := hon
    · rw [seekRun, if_neg (by omega)]
      refine ⟨hs, fun p hp h0 => ?_⟩
      obtain rfl := Option.some.inj hp
      exact absurd rfl h0
    have h0 := hl.ne_zero hf
    rw [seekRun, if_pos (by omega)]
    refine hs.wp_next hr fun m' hs' => ?_
    generalize hx : 4096 * f - 4096 = x
    by_cases hrun : x = m₀.mem f 0
    · rw [if_pos hrun]
      refine ⟨hs', fun p hp _ => ?_⟩
      obtain rfl := Option.some.inj hp
      refine ⟨hfollow.resolve_right ?_, .inr ⟨f, hf, rfl⟩⟩
      rintro ⟨g, -, hg, hne⟩
      obtain rfl : f = g := by omega
      exact hne (hx.trans hrun)
    · rw [if_neg hrun]
      exact ih hs' ⟨hl.next hf, .inl (.inr ⟨f, hf, rfl, h0, rfl⟩)⟩

/-- The second inner loop ends with a block, or where the search goes on. -/
theorem followRun_spec (hr : Rooted m₀ t v) (hl : FreeList m₀.mem m₀.lastFreePage free)
    (hs : Scanned m₀ t m)
    (hlow : OnList free low) :
    wp (followRun size fuel hi low frames) (fun r m' => Scanned m₀ t m' ∧ ∀ hi' low' frames' found,
      r = some (hi', low', frames', found) → OnList free low' ∧
        (found = false → hi' = hi ∨ ∃ f ∈ free, hi' = 4096 * f ∧ hi' - 4096 ≠ m₀.mem f 0)) E m := by
  induction fuel generalizing low frames m with
  | zero => exact ⟨hs, fun _ _ _ _ hp => by cases hp⟩
  | succ fuel ih =>
    obtain rfl | ⟨f, hf, rfl⟩ := hlow
    · rw [followRun, if_neg (by omega)]
      refine ⟨hs, fun hi' low' frames' found hp => ?_⟩
      obtain ⟨rfl, rfl, -, -⟩ := hp
      exact ⟨.inl rfl, fun _ => .inl rfl⟩
    have h0 := hl.ne_zero hf
    rw [followRun, if_pos (by omega)]
    refine hs.wp_next hr fun m' hs' => ?_
    generalize hx : 4096 * f - 4096 = x
    by_cases hrun : x = m₀.mem f 0
    · rw [if_pos hrun]
      by_cases hfound : decInt frames = 1
      · rw [if_pos hfound]
        refine ⟨hs', fun hi' low' frames' found hp => ?_⟩
        obtain ⟨-, rfl, -, rfl⟩ := hp
        exact ⟨hl.next hf, fun hfalse => by cases hfalse⟩
      · rw [if_neg hfound]
        exact ih hs' (hl.next hf)
    · rw [if_neg hrun]
      refine ⟨hs', fun hi' low' frames' found hp => ?_⟩
      obtain ⟨rfl, rfl, -, -⟩ := hp
      exact ⟨.inr ⟨f, hf, rfl⟩, fun _ => .inr ⟨f, hf, rfl, by rwa [hx]⟩⟩

/-- The search ends with a block below a frame of the list and the frame before that one, or stops
at the assertion. -/
theorem searchBlock_spec (hr : Rooted m₀ t v) (hl : FreeList m₀.mem m₀.lastFreePage free)
    (hs : Scanned m₀ t m)
    (h : Resumes m₀ free prev hi) :
    wp (searchBlock size fuel prev hi frames)
      (fun r m' => Scanned m₀ t m' ∧ ∀ prev' low, r = some (prev', low) →
        OnList free low ∧ ∃ hi', hi' ≠ 0 ∧ Follows m₀ free prev' hi')
      (fun e _ => e = .kassert "hi > 0") m := by
  induction fuel generalizing prev hi frames m with
  | zero => exact ⟨hs, fun _ _ hp => by cases hp⟩
  | succ fuel ih =>
    rw [searchBlock, wp_bind]
    refine (seekRun_spec hr hl hs h).mono ?_ fun _ _ he => he
    rintro (_ | ⟨prev', hi'⟩) m₁ ⟨hs₁, hseek⟩
    · exact ⟨hs₁, fun _ _ hp => by cases hp⟩
    by_cases h0 : hi' = 0
    · subst h0
      rfl
    obtain ⟨hfollow, hon⟩ := hseek _ rfl h0
    have hpos : decide (hi' > 0) = true := decide_eq_true (by omega)
    simp only [kassert, hpos, if_true, wp_bind, wp_pure]
    refine (followRun_spec hr hl hs₁ hon).mono ?_ fun _ _ he => he
    rintro (_ | ⟨hi'', low, frames', found⟩) m₂ ⟨hs₂, hrun⟩
    · exact ⟨hs₂, fun _ _ hp => by cases hp⟩
    obtain ⟨hlow, hnot⟩ := hrun _ _ _ _ rfl
    cases found with
    | true =>
      refine ⟨hs₂, fun p l hp => ?_⟩
      obtain ⟨rfl, rfl⟩ := hp
      exact ⟨hlow, hi', h0, hfollow⟩
    | false =>
      refine ih hs₂ ?_
      obtain rfl | ⟨f, hf, rfl, hne⟩ := hnot rfl
      · exact ⟨hon, .inl hfollow⟩
      · exact ⟨.inr ⟨f, hf, rfl⟩, .inr ⟨f, hf, rfl, hne⟩⟩

/-! ### The whole -/

/-- What `phys_block_alloc` should do for `k` frames: return the lowest of `k` frames that follow
each other, which are no longer on the list, with the others in their order, and count them; or
return 0, with nothing changed. -/
def BlockTaken (m : Machine) (free : List ℕ) (k low : ℕ) (m' : Machine) : Prop :=
  (∃ f, low = 4096 * f ∧ (∀ i, i < k → f + i ∈ free) ∧
      FreeList m'.mem m'.lastFreePage (free.filter fun g => decide (g < f ∨ f + k ≤ g)) ∧
        m'.numPages + k = m.numPages) ∨
    low = 0 ∧ FreeList m'.mem m'.lastFreePage free ∧ m'.numPages = m.numPages

/-- `phys_block_alloc` does not count the frames that it takes. When it returns 0, it has cut the
list. -/
theorem physBlockAlloc_spec (hs : Sane m t free) (hzero : m.mem 0 0 = 0) :
    wp (physBlockAlloc fuel size) (fun r m' => m'.numPages = m.numPages ∧
        (r = some 0 → ¬FreeList m'.mem m'.lastFreePage free))
          (fun e _ => e = .kassert "hi > 0") m := by
  have hr := hs.rooted
  have hscan : Scanned m t m := ⟨0, by
    have hset : m.mem.set t 1022 0 = m.mem := by
      rw [← hr.set_set 0]
      simp only [Memory.set, Function.update_idem, Function.update_self]
    rw [hset]
    rfl⟩
  have hstart : Resumes m free 0 m.lastFreePage := by
    refine ⟨?_, .inl (.inl ⟨rfl, rfl⟩)⟩
    cases free with
    | nil => exact .inl hs.chain
    | cons f fs => exact .inr ⟨f, by simp, hs.chain.1⟩
  rw [physBlockAlloc, wp_bind, wp_read, wp_bind]
  refine (searchBlock_spec hr hs.chain hscan hstart).mono ?_ fun _ _ he => he
  rintro (_ | ⟨prev, low⟩) m₁ ⟨hs₁, hblock⟩
  · obtain ⟨v, rfl⟩ := hs₁
    exact ⟨rfl, fun hnone => by cases hnone⟩
  obtain ⟨hlow, hi, hi0, hfollow⟩ := hblock _ _ rfl
  obtain ⟨f, rfl⟩ : ∃ f, low = 4096 * f := by
    obtain rfl | ⟨f, -, rfl⟩ := hlow
    · exact ⟨0, rfl⟩
    · exact ⟨f, rfl⟩
  dsimp only
  refine hs₁.wp_next hr fun m₂ hs₂ => ?_
  obtain ⟨w, rfl⟩ := hs₂
  have hr₂ := hr.setResv w
  have hcut : some (4096 * f) = some 0 → m.mem f 0 = 0 := fun h => by
    have h0 := Option.some.inj h
    obtain rfl : f = 0 := by omega
    exact hzero
  obtain ⟨rfl, rfl⟩ | ⟨p, hp, rfl, hp0, hlink⟩ := hfollow
  · let m₂ : Machine := { m.withMem (m.mem.set t 1022 w) with lastFreePage := m.mem f 0 }
    have hr₃ : Rooted m₂ t w :=
      ⟨hr₂.self, hr₂.self_present, hr₂.table, hr₂.table_present, hr₂.resv, hr₂.ne⟩
    rw [if_neg (fun h => h rfl), wp_bind, wp_modify, wp_bind]
    show wp tempUnmap _ _ m₂
    rw [hr₃.wp_tempUnmap, wp_pure]
    refine ⟨rfl, fun h hlist => hi0 ?_⟩
    exact (hs.chain.last_eq hlist).trans (hcut h)
  · have hpt : p ≠ t := fun e => hs.table_notMem (e ▸ hp)
    have hpd : p ≠ m.dir := fun e => hs.dir_notMem (e ▸ hp)
    have hr₃ := hr₂.setResv (4096 * p + 3)
    rw [if_pos (by omega), wp_bind, hr₂.wp_tempMap, wp_bind, wp_vwrite hr₃.walk_resv, wp_bind]
    rw [(hr₃.setWord hpd hpt 0 (m.mem f 0)).wp_tempUnmap, wp_pure]
    refine ⟨rfl, fun h hlist => hi0 ?_⟩
    have hlink' := hs.chain.link_eq hlist hp
    rw [← hlink, hlink']
    simp only [Machine.withMem_mem]
    rw [Memory.set_word_ne (by decide), Memory.set_self]
    exact hcut h

/-- **`phys_block_alloc` never does what it should**, for any list of free frames and any number
of frames: it returns with the frames not counted or the list cut, or stops at an assertion, or
does not end. (`reserve_region` has put 0 at address 0.) -/
theorem phys_block_alloc_never (m : Machine) (t : ℕ) (free : List ℕ) (k : ℕ) (h : Sane m t free)
    (hzero : m.mem 0 0 = 0)
    (hk : 1 ≤ k) :
    ¬∃ fuel low m', physBlockAlloc fuel (4096 * k) m = .ok (some low) m' ∧
      BlockTaken m free k low m' := by
  rintro ⟨fuel, low, m', hm, hright⟩
  obtain ⟨hpages, hcut⟩ := (physBlockAlloc_spec h hzero).ok hm
  obtain ⟨f, -, -, -, hcount⟩ | ⟨rfl, hlist, -⟩ := hright
  · omega
  · exact hcut rfl hlist

end

/-- The small machine of one directory, with the free frames 8, 7 and 6. -/
def blockMachine : Machine where
  mem
    | 1, 1023 => 4096 + 3
    | 1, 1022 => 4096 * 2 + 3
    | 8, 0 => 4096 * 7
    | 7, 0 => 4096 * 6
    | _, _ => 0
  dir := 1
  lastFreePage := 4096 * 8
  numPages := 3
  heapEnd := heapStart

theorem blockMachine_sane : Sane blockMachine 2 [8, 7, 6] :=
  ⟨⟨rfl, rfl, rfl, rfl, rfl, by decide⟩,
    ⟨rfl, by decide, rfl, by decide, rfl, by decide, rfl⟩, by decide, by decide, by decide⟩

/-- Two frames are never taken from the small machine as they should be. -/
theorem phys_block_alloc_never_two :
    Sane blockMachine 2 [8, 7, 6] ∧
      ¬∃ fuel low m', physBlockAlloc fuel (4096 * 2) blockMachine = .ok (some low) m' ∧
        BlockTaken blockMachine [8, 7, 6] 2 low m' :=
  ⟨blockMachine_sane,
    phys_block_alloc_never blockMachine 2 [8, 7, 6] 2 blockMachine_sane rfl (by decide)⟩

/-- Two frames are taken, 7 and 8, and three are counted as before. -/
theorem block_not_counted :
    Sane blockMachine 2 [8, 7, 6] ∧
      ∃ m', physBlockAlloc 5 (4096 * 2) blockMachine = .ok (some (4096 * 7)) m' ∧
      m'.lastFreePage = 4096 * 6 ∧ m'.numPages = 3 ∧
        ¬BlockTaken blockMachine [8, 7, 6] 2 (4096 * 7) m' := by
  refine ⟨blockMachine_sane, _,
    Outcome.eq_ok_of_value (by decide +kernel), by decide +kernel, by decide +kernel, ?_⟩
  rintro (⟨f, -, -, -, hcount⟩ | ⟨h0, -⟩)
  · exact absurd hcount (by decide +kernel)
  · exact absurd h0 (by decide)

end Cosiris.Mem
