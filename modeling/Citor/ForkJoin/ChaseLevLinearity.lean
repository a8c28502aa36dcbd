import Citor.ForkJoin.ChaseLevDeque

/-!
# The Chase-Lev deque is linear

The invariant keeps the logical deque in the window between `top` and a logical
bottom that a pop in flight has not given up yet.  A thief that has seen a
non-empty deque stays entitled to its element for as long as `top` has not
moved, whichever array it reads from.
-/

namespace Citor.ChaseLev

open Citor.Interleaving

variable {T : Type*}

/-! ## Ring arrays -/

section Ring

variable (array other : RingArray T) (lo hi : ℤ)

theorem RingArray.capacity_pos : 0 < array.capacity := by
  unfold RingArray.capacity
  positivity

@[simp]
theorem RingArray.store_capacity (i : ℤ) (value : T) :
    (array.store i value).capacity = array.capacity := rfl

theorem RingArray.load_store_self (i : ℤ) (value : T) :
    (array.store i value).load i = value := by
  simp [RingArray.load, RingArray.store, RingArray.index, RingArray.capacity]

/-- Indices closer than the capacity do not share a slot. -/
theorem RingArray.load_store_of_ne {i j : ℤ} (value : T) (hne : i ≠ j)
    (hclose : |i - j| < array.capacity) :
    (array.store i value).load j = array.load j := by
  have hindex : array.index j ≠ array.index i := by
    intro hsame
    have hdvd : array.capacity ∣ i - j :=
      Int.ModEq.dvd (show j ≡ i [ZMOD array.capacity] from hsame)
    have hzero := Int.eq_zero_of_abs_lt_dvd hdvd hclose
    omega
  simp only [RingArray.load, RingArray.store]
  exact Function.update_of_ne hindex _ _

theorem RingArray.window_congr {array other : RingArray T} {lo hi : ℤ}
    (hload : ∀ i, lo ≤ i → i < hi → array.load i = other.load i) :
    array.window lo hi = other.window lo hi := by
  unfold RingArray.window
  apply List.map_congr_left
  intro offset hoffset
  have := List.mem_range.mp hoffset
  exact hload _ (by omega) (by omega)

theorem RingArray.window_snoc (hle : lo ≤ hi) :
    array.window lo (hi + 1) = array.window lo hi ++ [array.load hi] := by
  have hlength : (hi + 1 - lo).toNat = (hi - lo).toNat + 1 := by omega
  have hlast : lo + ((hi - lo).toNat : ℤ) = hi := by omega
  simp only [RingArray.window]
  rw [hlength, List.range_succ, List.map_append, List.map_singleton, hlast]

theorem RingArray.window_cons (hlt : lo < hi) :
    array.window lo hi = array.load lo :: array.window (lo + 1) hi := by
  have hlength : (hi - lo).toNat = (hi - (lo + 1)).toNat + 1 := by omega
  simp only [RingArray.window]
  rw [hlength, List.range_succ_eq_map, List.map_cons, List.map_map]
  congr 1
  · simp
  · apply List.map_congr_left
    intro offset _
    simp only [Function.comp_apply, Nat.succ_eq_add_one, Nat.cast_add,
      Nat.cast_one]
    congr 1
    ring

theorem RingArray.window_empty (hle : hi ≤ lo) : array.window lo hi = [] := by
  have hlength : (hi - lo).toNat = 0 := by omega
  simp [RingArray.window, hlength]

/-- Copying keeps every element of the copied range. -/
theorem copyLive_load (old new : RingArray T) (t : ℤ) (count : ℕ)
    (hfits : (count : ℤ) ≤ new.capacity) {i : ℤ} (hlow : t ≤ i)
    (hhigh : i < t + count) :
    (copyLive old t count new).load i = old.load i := by
  have hcapacity : ∀ copied, (copyLive old t copied new).capacity =
      new.capacity := by
    intro copied
    induction copied with
    | zero => rfl
    | succ copied ih => exact ih
  induction count with
  | zero => simp at hhigh; omega
  | succ count ih =>
      simp only [copyLive]
      by_cases hlast : i = t + count
      · rw [hlast, RingArray.load_store_self]
      · rw [RingArray.load_store_of_ne _ _ (Ne.symm hlast)]
        · exact ih (by push_cast at hfits ⊢; omega) (by push_cast at hhigh; omega)
        · rw [hcapacity, abs_lt]
          push_cast at hfits hhigh
          constructor <;> omega

theorem regrow_load [Inhabited T] (old : RingArray T) (log : ℕ) {t b i : ℤ}
    (hfits : b - t ≤ 2 ^ log) (hlow : t ≤ i) (hhigh : i < b) :
    (regrow old log t b).load i = old.load i := by
  have hcount : ((b - t).toNat : ℤ) = b - t := by omega
  apply copyLive_load _ _ _ _ _ hlow (by omega)
  rw [hcount]
  exact hfits

theorem regrow_capacity [Inhabited T] (old : RingArray T) (log : ℕ)
    (t b : ℤ) : (regrow old log t b).capacity = 2 ^ log := by
  unfold regrow
  induction (b - t).toNat with
  | zero => rfl
  | succ count ih => exact ih

theorem le_reserveLog (needed log : ℕ) : log ≤ reserveLog needed log := by
  induction log using reserveLog.induct needed with
  | case1 log hmore ih =>
      rw [reserveLog, if_pos hmore]
      omega
  | case2 log hdone => rw [reserveLog, if_neg hdone]

end Ring

/-! ## The invariant -/

/-- One past the last element nobody has taken.  A pop has lowered `bottom`
before it knows whether it gets the element. -/
def State.logicalBottom (state : State T) : ℤ :=
  match state.owner with
  | .popTop b | .popTake b | .popLast b | .popRace b _ | .popRestore b => b + 1
  | _ => state.bottom

/-- Where thieves that have seen a non-empty deque may still take: a pop that
found more than one element owns the last one. -/
def State.stealBound (state : State T) : ℤ :=
  match state.owner with
  | .popTake b => b
  | _ => state.logicalBottom

/-- The logical deque. -/
def State.logical (state : State T) : List T :=
  state.array.window state.top state.logicalBottom

def OwnerOk (state : State T) : OwnerPc T → Prop
  | .idle => True
  | .pushTop _ b | .reserveTop _ b => b = state.bottom
  | .pushGrow _ b t | .reserveGrow _ b t =>
      b = state.bottom ∧ t ≤ state.top ∧ b - t ≤ state.array.capacity
  | .pushStore _ b =>
      b = state.bottom ∧ b - state.top < state.array.capacity - 1
  | .pushBottom value b =>
      b = state.bottom ∧ b - state.top < state.array.capacity - 1 ∧
        state.array.load b = value
  | .popLower b => state.bottom = b + 1
  | .popTop b => state.bottom = b
  | .popTake b => state.bottom = b ∧ state.top ≤ b
  | .popLast b => state.bottom = b ∧ b ≤ state.top
  | .popRace b value =>
      state.bottom = b ∧ b ≤ state.top ∧
        (state.top = b → state.array.load b = value)
  | .popRestore b => state.bottom = b ∧ state.top = b + 1

/-- A thief past its look at `bottom` is entitled to index `t` while `top`
stands there. -/
def Entitled (state : State T) (t : ℤ) : Prop :=
  t ≤ state.top ∧ (state.top = t → t < state.stealBound)

def ThiefOk (state : State T) : ThiefPc T → Prop
  | .idle | .stealTop => True
  | .stealBottom t => t ≤ state.top
  | .stealArray t => Entitled state t
  | .stealLoad t array =>
      Entitled state t ∧ array ≤ state.current ∧
        (state.top = t → (state.arrays array).load t = state.array.load t)
  | .stealRace t value =>
      Entitled state t ∧ (state.top = t → state.array.load t = value)

structure Inv (trace : List (Event T)) (state : State T) : Prop where
  history : History trace state.logical
  ordered : state.top ≤ state.logicalBottom
  room : state.logicalBottom - state.top ≤ state.array.capacity - 1
  owner : OwnerOk state state.owner
  thief : ∀ thief, ThiefOk state (state.thief thief)

/-! ## Frames -/

section Frames

variable {before after : State T} {trace extended : List (Event T)}

/-- A thief keeps its entitlement while `top` and the element there stay. -/
theorem ThiefOk.frame {pc : ThiefPc T} (hok : ThiefOk before pc)
    (htop : after.top = before.top)
    (hbound : before.top < before.stealBound → after.top < after.stealBound)
    (hcurrent : before.current ≤ after.current)
    (hload : before.top < before.stealBound →
      after.array.load before.top = before.array.load before.top)
    (harrays : before.top < before.stealBound → ∀ array ≤ before.current,
      (after.arrays array).load before.top =
        (before.arrays array).load before.top) :
    ThiefOk after pc := by
  have hentitled : ∀ {t}, Entitled before t → Entitled after t := by
    rintro t ⟨hle, hopen⟩
    refine ⟨by rw [htop]; exact hle, fun hat => ?_⟩
    rw [← hat]
    rw [htop] at hat
    exact hbound (hat ▸ hopen hat)
  cases pc with
  | idle => trivial
  | stealTop => trivial
  | stealBottom t =>
      simp only [ThiefOk] at hok ⊢
      rwa [htop]
  | stealArray t => exact hentitled hok
  | stealLoad t array =>
      obtain ⟨hentitledBefore, hle, hvalue⟩ := hok
      refine ⟨hentitled hentitledBefore, hle.trans hcurrent, fun hat => ?_⟩
      rw [htop] at hat
      have hopen : before.top < before.stealBound :=
        hat ▸ hentitledBefore.2 hat
      rw [← hat, hload hopen, harrays hopen array hle, hat]
      exact hvalue hat
  | stealRace t value =>
      obtain ⟨hentitledBefore, hvalue⟩ := hok
      refine ⟨hentitled hentitledBefore, fun hat => ?_⟩
      rw [htop] at hat
      have hopen : before.top < before.stealBound :=
        hat ▸ hentitledBefore.2 hat
      rw [← hat, hload hopen, hat]
      exact hvalue hat

/-- Once `top` has moved, every thief in flight has lost. -/
theorem ThiefOk.of_top_lt {pc : ThiefPc T} (hok : ThiefOk before pc)
    (htop : before.top < after.top) (hcurrent : before.current ≤ after.current) :
    ThiefOk after pc := by
  have hlost : ∀ {t}, t ≤ before.top → Entitled after t := by
    intro t hle
    exact ⟨by omega, fun hat => by omega⟩
  cases pc with
  | idle => trivial
  | stealTop => trivial
  | stealBottom t =>
      simp only [ThiefOk] at hok ⊢
      omega
  | stealArray t => exact hlost hok.1
  | stealLoad t array =>
      have hle := hok.1.1
      exact ⟨hlost hle, hok.2.1.trans hcurrent, fun hat => by omega⟩
  | stealRace t value =>
      have hle := hok.1.1
      exact ⟨hlost hle, fun hat => by omega⟩

/-- A move of the owner that leaves `top` and the arrays alone. -/
theorem Inv.move (hinv : Inv trace before) (htop : after.top = before.top)
    (harrays : after.arrays = before.arrays)
    (hcurrent : after.current = before.current)
    (hthief : after.thief = before.thief)
    (hhistory : History extended after.logical)
    (hordered : after.top ≤ after.logicalBottom)
    (hlogical : after.logicalBottom ≤ before.logicalBottom)
    (hbound : before.top < before.stealBound → after.top < after.stealBound)
    (howner : OwnerOk after after.owner) : Inv extended after where
  history := hhistory
  ordered := hordered
  room := by
    have harray : after.array = before.array := by
      simp [State.array, harrays, hcurrent]
    rw [harray, htop]
    have := hinv.room
    omega
  owner := howner
  thief thief := by
    have harray : after.array = before.array := by
      simp [State.array, harrays, hcurrent]
    rw [hthief]
    exact (hinv.thief thief).frame htop hbound hcurrent.ge
      (fun _ => by rw [harray]) fun _ _ _ => by rw [harrays]

/-- A move that changes the program counter but not the logical deque. -/
theorem Inv.stay (hinv : Inv trace before) (htop : after.top = before.top)
    (harrays : after.arrays = before.arrays)
    (hcurrent : after.current = before.current)
    (hthief : after.thief = before.thief)
    (hlogical : after.logicalBottom = before.logicalBottom)
    (hbound : before.top < before.stealBound → after.top < after.stealBound)
    (howner : OwnerOk after after.owner) : Inv trace after := by
  have hsame : after.logical = before.logical := by
    simp [State.logical, State.array, htop, harrays, hcurrent, hlogical]
  refine hinv.move htop harrays hcurrent hthief ?_ ?_ hlogical.le hbound howner
  · rw [hsame]
    exact hinv.history
  · rw [htop, hlogical]
    exact hinv.ordered

/-- Publishing a grown copy of the live elements. -/
theorem Inv.publish [Inhabited T] (hinv : Inv trace before) {log : ℕ}
    {t b : ℤ} {pc : OwnerPc T} (hb : b = before.logicalBottom)
    (hbound : before.stealBound ≤ before.logicalBottom)
    (ht : t ≤ before.top) (hfits : b - t ≤ before.array.capacity)
    (hlog : before.array.log ≤ log)
    (hbottom : before.logicalBottom = before.bottom)
    (hafter : after = { before.publish (regrow before.array log t b) with
      owner := pc })
    (hlogical : after.logicalBottom = before.logicalBottom)
    (hsteal : after.stealBound = before.logicalBottom)
    (howner : OwnerOk after after.owner) : Inv trace after := by
  have hcapacity : before.array.capacity ≤ 2 ^ log := by
    unfold RingArray.capacity
    exact pow_le_pow_right₀ (by norm_num) hlog
  have hload : ∀ i, before.top ≤ i → i < before.logicalBottom →
      after.array.load i = before.array.load i := by
    intro i hlow hhigh
    subst hafter
    simp only [State.array, State.publish, Function.update_self]
    exact regrow_load _ _ (by omega) (by omega) (by omega)
  have htop : after.top = before.top := by
    subst hafter
    rfl
  have harrayCapacity : after.array.capacity = 2 ^ log := by
    subst hafter
    simp only [State.array, State.publish, Function.update_self]
    exact regrow_capacity _ _ _ _
  constructor
  · have hsame : after.logical = before.logical := by
      unfold State.logical
      rw [htop, hlogical]
      exact RingArray.window_congr hload
    rw [hsame]
    exact hinv.history
  · rw [htop, hlogical]
    exact hinv.ordered
  · rw [htop, hlogical, harrayCapacity]
    have := hinv.room
    omega
  · exact howner
  · intro thief
    have hthief : after.thief thief = before.thief thief := by
      subst hafter
      rfl
    rw [hthief]
    refine (hinv.thief thief).frame htop ?_ ?_ ?_ ?_
    · intro hopen
      rw [htop, hsteal]
      omega
    · subst hafter
      exact Nat.le_succ _
    · intro hopen
      exact hload _ le_rfl (by omega)
    · intro _ array hle
      subst hafter
      have hne : array ≠ before.current + 1 := by omega
      simp [State.publish, hne]

end Frames

/-! ## The owner's steps -/

section Owner

variable [Inhabited T] {before after : State T} {trace : List (Event T)}
variable {event : Option (Event T)}

theorem Inv.pushTop {value : T} {b : ℤ} (hinv : Inv trace before)
    (hpc : before.owner = .pushTop value b)
    (hstep : stepOwner before = some (after, event)) :
    Inv (trace ++ event.toList) after := by
  have hok : b = before.bottom := by simpa [hpc, OwnerOk] using hinv.owner
  have hroom := hinv.room
  simp only [State.logicalBottom, hpc] at hroom
  simp only [stepOwner, hpc] at hstep
  split at hstep
  next hfull =>
    obtain ⟨rfl, rfl⟩ := by simpa using hstep
    simp only [Option.toList_none, List.append_nil]
    refine hinv.stay rfl rfl rfl rfl (by simp [State.logicalBottom, hpc]) ?_ ?_
    · simp [State.stealBound, State.logicalBottom, hpc]
    · exact ⟨hok, le_rfl, by simp only [State.array] at hroom ⊢; omega⟩
  next hspace =>
    obtain ⟨rfl, rfl⟩ := by simpa using hstep
    simp only [Option.toList_none, List.append_nil]
    refine hinv.stay rfl rfl rfl rfl (by simp [State.logicalBottom, hpc]) ?_ ?_
    · simp [State.stealBound, State.logicalBottom, hpc]
    · exact ⟨hok, by simp only [State.array] at hspace ⊢; omega⟩

theorem Inv.pushGrow {value : T} {b t : ℤ} (hinv : Inv trace before)
    (hpc : before.owner = .pushGrow value b t)
    (hstep : stepOwner before = some (after, event)) :
    Inv (trace ++ event.toList) after := by
  obtain ⟨hb, ht, hfits⟩ : b = before.bottom ∧ t ≤ before.top ∧
      b - t ≤ before.array.capacity := by
    simpa [hpc, OwnerOk] using hinv.owner
  have hlogical : before.logicalBottom = before.bottom := by
    simp [State.logicalBottom, hpc]
  have hroom := hinv.room
  simp only [stepOwner, hpc, Option.some.injEq, Prod.mk.injEq] at hstep
  obtain ⟨hafter, rfl⟩ := hstep
  simp only [Option.toList_none, List.append_nil]
  refine hinv.publish (by rw [hlogical, hb]) ?_ ht hfits (Nat.le_succ _) hlogical
    hafter.symm ?_ ?_ ?_
  · simp [State.stealBound, hpc]
  · subst hafter
    simp [State.logicalBottom, hpc, State.publish]
  · subst hafter
    simp [State.stealBound, State.logicalBottom, hpc, State.publish]
  · subst hafter
    refine ⟨hb, ?_⟩
    have hcapacity : (2 : ℤ) ^ (before.array.log + 1) =
        2 * before.array.capacity := by
      unfold RingArray.capacity
      ring
    have hpos := before.array.capacity_pos
    simp only [State.array, State.publish, Function.update_self]
    rw [regrow_capacity]
    simp only [State.array] at hcapacity hroom hpos
    rw [hcapacity]
    omega

theorem Inv.pushStore {value : T} {b : ℤ} (hinv : Inv trace before)
    (hpc : before.owner = .pushStore value b)
    (hstep : stepOwner before = some (after, event)) :
    Inv (trace ++ event.toList) after := by
  obtain ⟨hb, hspace⟩ : b = before.bottom ∧
      b - before.top < before.array.capacity - 1 := by
    simpa [hpc, OwnerOk] using hinv.owner
  have hlogical : before.logicalBottom = before.bottom := by
    simp [State.logicalBottom, hpc]
  have hordered := hinv.ordered
  simp only [stepOwner, hpc, Option.some.injEq, Prod.mk.injEq] at hstep
  obtain ⟨rfl, rfl⟩ := hstep
  simp only [Option.toList_none, List.append_nil]
  -- the stored slot is no live one
  have hkept : ∀ i, before.top ≤ i → i < before.bottom →
      (before.array.store b value).load i = before.array.load i := by
    intro i hlow hhigh
    apply RingArray.load_store_of_ne _ _ (by omega)
    rw [abs_lt]
    constructor <;> omega
  constructor
  · have hsame : State.logical { before.storeSlot b value with
        owner := .pushBottom value b } = before.logical := by
      simp only [State.logical, State.array, State.storeSlot,
        State.logicalBottom, hpc, Function.update_self]
      exact RingArray.window_congr hkept
    rw [hsame]
    exact hinv.history
  · simpa [State.logicalBottom, State.storeSlot, hpc] using hordered
  · simpa [State.logicalBottom, State.storeSlot, State.array, hpc]
      using hinv.room
  · refine ⟨hb, ?_, ?_⟩
    · simpa [State.storeSlot, State.array] using hspace
    · simp [State.storeSlot, State.array, RingArray.load_store_self]
  · intro thief
    refine (hinv.thief thief).frame rfl ?_ le_rfl ?_ ?_
    · simp [State.stealBound, State.logicalBottom, State.storeSlot, hpc]
    · intro hopen
      simp only [State.stealBound, State.logicalBottom, hpc] at hopen
      simp only [State.array, State.storeSlot, Function.update_self]
      exact hkept _ le_rfl hopen
    · intro hopen array _
      simp only [State.stealBound, State.logicalBottom, hpc] at hopen
      by_cases hsame : array = before.current
      · simp only [State.storeSlot, hsame, Function.update_self]
        exact hkept _ le_rfl hopen
      · simp [State.storeSlot, hsame]

theorem Inv.pushBottom {value : T} {b : ℤ} (hinv : Inv trace before)
    (hpc : before.owner = .pushBottom value b)
    (hstep : stepOwner before = some (after, event)) :
    Inv (trace ++ event.toList) after := by
  obtain ⟨hb, hspace, hvalue⟩ : b = before.bottom ∧
      b - before.top < before.array.capacity - 1 ∧
      before.array.load b = value := by
    simpa [hpc, OwnerOk] using hinv.owner
  have hlogical : before.logicalBottom = before.bottom := by
    simp [State.logicalBottom, hpc]
  have hordered := hinv.ordered
  simp only [stepOwner, hpc, Option.some.injEq, Prod.mk.injEq] at hstep
  obtain ⟨rfl, rfl⟩ := hstep
  constructor
  · refine .snoc hinv.history ?_
    simp only [Legal, State.logical, State.logicalBottom, hpc, State.array]
    rw [← hb, RingArray.window_snoc _ _ _ (by omega)]
    simp only [State.array] at hvalue
    rw [hvalue]
  · simp only [State.logicalBottom]
    omega
  · simp only [State.logicalBottom, State.array] at hspace ⊢
    omega
  · trivial
  · intro thief
    refine (hinv.thief thief).frame rfl ?_ le_rfl (fun _ => rfl) fun _ _ _ => rfl
    intro hopen
    simp only [State.stealBound, State.logicalBottom, hpc] at hopen ⊢
    omega

theorem Inv.reserveTop {needed : ℕ} {b : ℤ} (hinv : Inv trace before)
    (hpc : before.owner = .reserveTop needed b)
    (hstep : stepOwner before = some (after, event)) :
    Inv (trace ++ event.toList) after := by
  have hok : b = before.bottom := by simpa [hpc, OwnerOk] using hinv.owner
  have hroom := hinv.room
  simp only [State.logicalBottom, hpc] at hroom
  simp only [stepOwner, hpc, Option.some.injEq, Prod.mk.injEq] at hstep
  obtain ⟨rfl, rfl⟩ := hstep
  simp only [Option.toList_none, List.append_nil]
  refine hinv.stay rfl rfl rfl rfl (by simp [State.logicalBottom, hpc]) ?_ ?_
  · simp [State.stealBound, State.logicalBottom, hpc]
  · exact ⟨hok, le_rfl, by simp only [State.array] at hroom ⊢; omega⟩

theorem Inv.reserveGrow {needed : ℕ} {b t : ℤ} (hinv : Inv trace before)
    (hpc : before.owner = .reserveGrow needed b t)
    (hstep : stepOwner before = some (after, event)) :
    Inv (trace ++ event.toList) after := by
  obtain ⟨hb, ht, hfits⟩ : b = before.bottom ∧ t ≤ before.top ∧
      b - t ≤ before.array.capacity := by
    simpa [hpc, OwnerOk] using hinv.owner
  have hlogical : before.logicalBottom = before.bottom := by
    simp [State.logicalBottom, hpc]
  simp only [stepOwner, hpc, Option.some.injEq, Prod.mk.injEq] at hstep
  obtain ⟨hafter, rfl⟩ := hstep
  simp only [Option.toList_none, List.append_nil]
  refine hinv.publish (by rw [hlogical, hb]) ?_ ht hfits (le_reserveLog needed _)
    hlogical hafter.symm ?_ ?_ ?_
  · simp [State.stealBound, hpc]
  · subst hafter
    simp [State.logicalBottom, hpc, State.publish]
  · subst hafter
    simp [State.stealBound, State.logicalBottom, hpc, State.publish]
  · subst hafter
    trivial

theorem Inv.popLower {b : ℤ} (hinv : Inv trace before)
    (hpc : before.owner = .popLower b)
    (hstep : stepOwner before = some (after, event)) :
    Inv (trace ++ event.toList) after := by
  have hok : before.bottom = b + 1 := by simpa [hpc, OwnerOk] using hinv.owner
  simp only [stepOwner, hpc, Option.some.injEq, Prod.mk.injEq] at hstep
  obtain ⟨rfl, rfl⟩ := hstep
  simp only [Option.toList_none, List.append_nil]
  refine hinv.stay rfl rfl rfl rfl (by simp [State.logicalBottom, hpc, hok]) ?_ rfl
  simp [State.stealBound, State.logicalBottom, hpc, hok]

theorem Inv.popTop {b : ℤ} (hinv : Inv trace before)
    (hpc : before.owner = .popTop b)
    (hstep : stepOwner before = some (after, event)) :
    Inv (trace ++ event.toList) after := by
  have hok : before.bottom = b := by simpa [hpc, OwnerOk] using hinv.owner
  have hordered := hinv.ordered
  simp only [State.logicalBottom, hpc] at hordered
  simp only [stepOwner, hpc] at hstep
  split at hstep
  next hempty =>
    obtain ⟨rfl, rfl⟩ := by simpa using hstep
    have htop : before.top = b + 1 := by omega
    refine hinv.move rfl rfl rfl rfl ?_ ?_ ?_ ?_ ⟨hok, htop⟩
    · refine .snoc hinv.history ⟨?_, ?_⟩
      · simp only [State.logical, State.logicalBottom, hpc]
        exact RingArray.window_empty _ _ _ (by omega)
      · simp only [State.logical, State.logicalBottom]
        exact RingArray.window_empty _ _ _ (by simp [htop])
    · simp [State.logicalBottom, htop]
    · simp [State.logicalBottom, hpc]
    · simp [State.stealBound, State.logicalBottom, hpc]
  next hmore =>
    split at hstep
    next hmany =>
      obtain ⟨rfl, rfl⟩ := by simpa using hstep
      simp only [Option.toList_none, List.append_nil]
      refine hinv.stay rfl rfl rfl rfl (by simp [State.logicalBottom, hpc]) ?_
        ⟨hok, by simp only; omega⟩
      intro _
      simp only [State.stealBound]
      omega
    next hlast =>
      obtain ⟨rfl, rfl⟩ := by simpa using hstep
      simp only [Option.toList_none, List.append_nil]
      refine hinv.stay rfl rfl rfl rfl (by simp [State.logicalBottom, hpc]) ?_
        ⟨hok, by simp only; omega⟩
      simp [State.stealBound, State.logicalBottom, hpc]

theorem Inv.popTake {b : ℤ} (hinv : Inv trace before)
    (hpc : before.owner = .popTake b)
    (hstep : stepOwner before = some (after, event)) :
    Inv (trace ++ event.toList) after := by
  obtain ⟨hbottom, htop⟩ : before.bottom = b ∧ before.top ≤ b := by
    simpa [hpc, OwnerOk] using hinv.owner
  simp only [stepOwner, hpc, Option.some.injEq, Prod.mk.injEq] at hstep
  obtain ⟨rfl, rfl⟩ := hstep
  refine hinv.move rfl rfl rfl rfl ?_ ?_ ?_ ?_ trivial
  · refine .snoc hinv.history ?_
    simp only [Legal, State.logical, State.logicalBottom, hpc, State.array,
      hbottom]
    exact RingArray.window_snoc _ _ _ htop
  · simp [State.logicalBottom, hbottom, htop]
  · simp [State.logicalBottom, hpc, hbottom]
  · simp [State.stealBound, State.logicalBottom, hpc, hbottom]

theorem Inv.popLast {b : ℤ} (hinv : Inv trace before)
    (hpc : before.owner = .popLast b)
    (hstep : stepOwner before = some (after, event)) :
    Inv (trace ++ event.toList) after := by
  obtain ⟨hbottom, htop⟩ : before.bottom = b ∧ b ≤ before.top := by
    simpa [hpc, OwnerOk] using hinv.owner
  simp only [stepOwner, hpc, Option.some.injEq, Prod.mk.injEq] at hstep
  obtain ⟨rfl, rfl⟩ := hstep
  simp only [Option.toList_none, List.append_nil]
  refine hinv.stay rfl rfl rfl rfl (by simp [State.logicalBottom, hpc]) ?_
    ⟨hbottom, htop, fun _ => rfl⟩
  simp [State.stealBound, State.logicalBottom, hpc]

theorem Inv.popRace {b : ℤ} {value : T} (hinv : Inv trace before)
    (hpc : before.owner = .popRace b value)
    (hstep : stepOwner before = some (after, event)) :
    Inv (trace ++ event.toList) after := by
  obtain ⟨hbottom, htop, hvalue⟩ : before.bottom = b ∧ b ≤ before.top ∧
      (before.top = b → before.array.load b = value) := by
    simpa [hpc, OwnerOk] using hinv.owner
  have hordered := hinv.ordered
  have hroom := hinv.room
  simp only [State.logicalBottom, hpc] at hordered hroom
  simp only [stepOwner, hpc] at hstep
  split at hstep
  next hwon =>
    obtain ⟨rfl, rfl⟩ := by simpa using hstep
    constructor
    · refine .snoc hinv.history ?_
      have hsingle : before.logical = [] ++ [value] := by
        simp only [State.logical, State.logicalBottom, hpc]
        rw [RingArray.window_snoc _ _ _ (by omega), hvalue hwon,
          RingArray.window_empty _ _ _ (by omega)]
      have hnone : State.logical { before with
          top := b + 1, owner := .popRestore b } = [] := by
        simp only [State.logical, State.logicalBottom]
        exact RingArray.window_empty _ _ _ le_rfl
      rw [hnone]
      exact hsingle
    · simp [State.logicalBottom]
    · have hpos := before.array.capacity_pos
      simp only [State.logicalBottom, State.array] at hpos ⊢
      omega
    · exact ⟨hbottom, rfl⟩
    · intro thief
      exact (hinv.thief thief).of_top_lt (by simp only; omega) le_rfl
  next hlost =>
    obtain ⟨rfl, rfl⟩ := by simpa using hstep
    have htopNext : before.top = b + 1 := by omega
    refine hinv.move rfl rfl rfl rfl ?_ ?_ ?_ ?_ ⟨hbottom, htopNext⟩
    · refine .snoc hinv.history ⟨?_, ?_⟩
      · simp only [State.logical, State.logicalBottom, hpc]
        exact RingArray.window_empty _ _ _ (by omega)
      · simp only [State.logical, State.logicalBottom]
        exact RingArray.window_empty _ _ _ (by simp [htopNext])
    · simp [State.logicalBottom, htopNext]
    · simp [State.logicalBottom, hpc]
    · simp [State.stealBound, State.logicalBottom, hpc]

theorem Inv.popRestore {b : ℤ} (hinv : Inv trace before)
    (hpc : before.owner = .popRestore b)
    (hstep : stepOwner before = some (after, event)) :
    Inv (trace ++ event.toList) after := by
  obtain ⟨hbottom, htop⟩ : before.bottom = b ∧ before.top = b + 1 := by
    simpa [hpc, OwnerOk] using hinv.owner
  simp only [stepOwner, hpc, Option.some.injEq, Prod.mk.injEq] at hstep
  obtain ⟨rfl, rfl⟩ := hstep
  simp only [Option.toList_none, List.append_nil]
  refine hinv.stay rfl rfl rfl rfl (by simp [State.logicalBottom, hpc]) ?_ trivial
  simp [State.stealBound, State.logicalBottom, hpc]

theorem inv_stepOwner (hinv : Inv trace before)
    (hstep : stepOwner before = some (after, event)) :
    Inv (trace ++ event.toList) after := by
  cases hpc : before.owner with
  | idle => simp [stepOwner, hpc] at hstep
  | pushTop value b => exact hinv.pushTop hpc hstep
  | pushGrow value b t => exact hinv.pushGrow hpc hstep
  | pushStore value b => exact hinv.pushStore hpc hstep
  | pushBottom value b => exact hinv.pushBottom hpc hstep
  | reserveTop needed b => exact hinv.reserveTop hpc hstep
  | reserveGrow needed b t => exact hinv.reserveGrow hpc hstep
  | popLower b => exact hinv.popLower hpc hstep
  | popTop b => exact hinv.popTop hpc hstep
  | popTake b => exact hinv.popTake hpc hstep
  | popLast b => exact hinv.popLast hpc hstep
  | popRace b value => exact hinv.popRace hpc hstep
  | popRestore b => exact hinv.popRestore hpc hstep

end Owner

/-! ## A thief's steps -/

section Thief

variable {before after : State T} {trace : List (Event T)} {thief : ℕ}
variable {event : Option (Event T)}

theorem bottom_le_stealBound (hok : OwnerOk before before.owner) :
    before.bottom ≤ before.stealBound := by
  cases hpc : before.owner <;> rw [hpc] at hok <;>
    simp only [State.stealBound, State.logicalBottom, hpc] <;>
    simp only [OwnerOk] at hok <;> omega

/-- Moving one thief leaves the deque alone. -/
theorem Inv.setThief {pc : ThiefPc T} (hinv : Inv trace before)
    (hok : ThiefOk before pc) : Inv trace (before.setThief thief pc) where
  history := hinv.history
  ordered := hinv.ordered
  room := hinv.room
  owner := hinv.owner
  thief other := by
    have hframe : ∀ {kept}, ThiefOk before kept →
        ThiefOk (before.setThief thief pc) kept := fun hkept =>
      hkept.frame rfl id le_rfl (fun _ => rfl) fun _ _ _ => rfl
    by_cases hsame : other = thief
    · subst hsame
      have hmoved : (before.setThief other pc).thief other = pc := by
        simp [State.setThief]
      rw [hmoved]
      exact hframe hok
    · have hkept : (before.setThief thief pc).thief other =
          before.thief other := by
        simp [State.setThief, hsame]
      rw [hkept]
      exact hframe (hinv.thief other)

/-- The compare-exchange of an entitled thief takes the oldest element. -/
theorem Inv.stealWon {t : ℤ} {value : T} (hinv : Inv trace before)
    (hentitled : Entitled before t)
    (hvalue : before.top = t → before.array.load t = value)
    (hwon : before.top = t) :
    Inv (trace ++ [.stolen value])
      ({ before with top := t + 1 }.setThief thief .idle) := by
  have hbound := hentitled.2 hwon
  have hlogicalBound : before.stealBound ≤ before.logicalBottom := by
    unfold State.stealBound
    split
    next hpc => simp [State.logicalBottom, hpc]
    next => exact le_rfl
  have hmoved : Inv (trace ++ [.stolen value])
      { before with top := t + 1 } := by
    constructor
    · refine .snoc hinv.history ?_
      simp only [Legal, State.logical, State.array]
      rw [hwon, RingArray.window_cons _ _ _ (by omega)]
      have hhead := hvalue hwon
      simp only [State.array] at hhead
      rw [hhead]
      rfl
    · simp only [State.logicalBottom] at hlogicalBound ⊢
      omega
    · have hroom := hinv.room
      simp only [State.logicalBottom, State.array] at hroom ⊢
      omega
    · have howner := hinv.owner
      cases hpc : before.owner <;> rw [hpc] at howner <;>
        simp only [OwnerOk, State.array, State.stealBound, State.logicalBottom,
          hpc] at howner hbound ⊢
      case pushGrow => exact ⟨howner.1, by omega, howner.2.2⟩
      case pushStore => exact ⟨howner.1, by omega⟩
      case pushBottom => exact ⟨howner.1, by omega, howner.2.2⟩
      case reserveGrow => exact ⟨howner.1, by omega, howner.2.2⟩
      case popTake => exact ⟨howner.1, by omega⟩
      case popLast => exact ⟨howner.1, by omega⟩
      case popRace => exact ⟨howner.1, by omega, fun _ => by omega⟩
      case popRestore => omega
      all_goals exact howner
    · intro other
      exact (hinv.thief other).of_top_lt (by simp only; omega) le_rfl
  exact hmoved.setThief trivial

theorem inv_stepThief (hinv : Inv trace before)
    (hstep : stepThief before thief = some (after, event)) :
    Inv (trace ++ event.toList) after := by
  have hok := hinv.thief thief
  cases hpc : before.thief thief <;> rw [hpc] at hok <;>
    simp only [stepThief, hpc] at hstep
  case idle => simp at hstep
  case stealTop =>
    obtain ⟨rfl, rfl⟩ := by simpa using hstep
    simpa using hinv.setThief (show ThiefOk before (.stealBottom before.top)
      from le_rfl)
  case stealBottom t =>
    split at hstep
    next =>
      obtain ⟨rfl, rfl⟩ := by simpa using hstep
      simpa using hinv.setThief (show ThiefOk before .idle from trivial)
    next hseen =>
      obtain ⟨rfl, rfl⟩ := by simpa using hstep
      have hentitled : ThiefOk before (.stealArray t) := by
        refine ⟨hok, fun _ => ?_⟩
        have := bottom_le_stealBound hinv.owner
        omega
      simpa using hinv.setThief hentitled
  case stealArray t =>
    obtain ⟨rfl, rfl⟩ := by simpa using hstep
    simpa using hinv.setThief (show ThiefOk before
      (.stealLoad t before.current) from ⟨hok, le_rfl, fun _ => rfl⟩)
  case stealLoad t array =>
    obtain ⟨rfl, rfl⟩ := by simpa using hstep
    obtain ⟨hentitled, -, hvalue⟩ := hok
    have hloaded : ThiefOk before
        (.stealRace t ((before.arrays array).load t)) :=
      ⟨hentitled, fun hat => (hvalue hat).symm⟩
    simpa using hinv.setThief hloaded
  case stealRace t value =>
    split at hstep
    next hwon =>
      obtain ⟨rfl, rfl⟩ := by simpa using hstep
      exact hinv.stealWon hok.1 hok.2 hwon
    next =>
      obtain ⟨rfl, rfl⟩ := by simpa using hstep
      simpa using hinv.setThief (show ThiefOk before .idle from trivial)

end Thief

/-! ## Runs -/

section Runs

variable [Inhabited T] {extraLog : ℕ} {trace : List (Event T)} {state : State T}

theorem inv_step {before after : State T} {action : Action T}
    {event : Option (Event T)} (hinv : Inv trace before)
    (hstep : (chaseLev T).step before action = some (after, event)) :
    Inv (trace ++ event.toList) after := by
  cases action with
  | push value =>
      cases hpc : before.owner <;> simp only [chaseLev, hpc] at hstep
      case idle =>
        obtain ⟨rfl, rfl⟩ := by simpa using hstep
        simp only [Option.toList_none, List.append_nil]
        refine hinv.stay rfl rfl rfl rfl (by simp [State.logicalBottom, hpc]) ?_ rfl
        simp [State.stealBound, State.logicalBottom, hpc]
      all_goals simp at hstep
  | reserve needed =>
      cases hpc : before.owner <;> simp only [chaseLev, hpc] at hstep
      case idle =>
        split at hstep
        next =>
          obtain ⟨rfl, rfl⟩ := by simpa using hstep
          simpa using hinv
        next =>
          obtain ⟨rfl, rfl⟩ := by simpa using hstep
          simp only [Option.toList_none, List.append_nil]
          refine hinv.stay rfl rfl rfl rfl (by simp [State.logicalBottom, hpc]) ?_
            rfl
          simp [State.stealBound, State.logicalBottom, hpc]
      all_goals simp at hstep
  | pop =>
      cases hpc : before.owner <;> simp only [chaseLev, hpc] at hstep
      case idle =>
        obtain ⟨rfl, rfl⟩ := by simpa using hstep
        simp only [Option.toList_none, List.append_nil]
        refine hinv.stay rfl rfl rfl rfl (by simp [State.logicalBottom, hpc]) ?_ ?_
        · simp [State.stealBound, State.logicalBottom, hpc]
        · simp only [OwnerOk]
          omega
      all_goals simp at hstep
  | ownerStep => exact inv_stepOwner hinv hstep
  | steal thief =>
      cases hpc : before.thief thief <;> simp only [chaseLev, hpc] at hstep
      case idle =>
        obtain ⟨rfl, rfl⟩ := by simpa using hstep
        simpa using hinv.setThief (show ThiefOk before .stealTop from trivial)
      all_goals simp at hstep
  | thiefStep thief => exact inv_stepThief hinv hstep

theorem inv_start : Inv [] (start extraLog : State T) := by
  refine ⟨?_, ?_, ?_, trivial, fun _ => trivial⟩
  · have hempty : (start extraLog : State T).logical = [] :=
      RingArray.window_empty _ _ _ le_rfl
    rw [hempty]
    exact .empty
  · exact le_rfl
  · have hpos := ((start extraLog : State T).array).capacity_pos
    simp only [State.logicalBottom, start, State.array] at hpos ⊢
    omega

theorem inv_run (run : Reaches (chaseLev T) (start extraLog) trace state) :
    Inv trace state :=
  run.invariant Inv inv_start fun hinv _ hstep => inv_step hinv hstep

end Runs

/-! ## Histories -/

section Values

def Event.pushedValue? : Event T → Option T
  | .pushed value => some value
  | _ => none

def Event.returnedValue? : Event T → Option T
  | .popped value | .stolen value => some value
  | _ => none

def Event.stolenValue? : Event T → Option T
  | .stolen value => some value
  | _ => none

def pushedValues (trace : List (Event T)) : List T :=
  trace.filterMap Event.pushedValue?

def returnedValues (trace : List (Event T)) : List T :=
  trace.filterMap Event.returnedValue?

def stolenValues (trace : List (Event T)) : List T :=
  trace.filterMap Event.stolenValue?

theorem filterMap_snoc (value? : Event T → Option T) (trace : List (Event T))
    (event : Event T) : (trace ++ [event]).filterMap value? =
      trace.filterMap value? ++ (value? event).toList := by
  rw [List.filterMap_append]
  cases hvalue : value? event <;> simp [hvalue]

variable {trace : List (Event T)} {content : List T}

/-- What was pushed is what was returned and what is left. -/
theorem History.perm (hhistory : History trace content) :
    (pushedValues trace).Perm (returnedValues trace ++ content) := by
  induction hhistory with
  | empty => exact .refl _
  | @snoc trace content event after _ hlegal ih =>
      simp only [pushedValues, returnedValues, filterMap_snoc] at ih ⊢
      cases event with
      | pushed value =>
          obtain rfl := hlegal
          simpa [Event.pushedValue?, Event.returnedValue?] using ih.append_right [value]
      | popped value =>
          obtain rfl := hlegal
          have hmoved : (after ++ [value]).Perm ([value] ++ after) :=
            List.perm_append_comm
          simpa [Event.pushedValue?, Event.returnedValue?] using
              ih.trans (hmoved.append_left _)
      | popEmpty =>
          obtain ⟨rfl, rfl⟩ := hlegal
          simpa [Event.pushedValue?, Event.returnedValue?] using ih
      | stolen value =>
          obtain rfl := hlegal
          simpa [Event.pushedValue?, Event.returnedValue?] using ih

/-- The stolen values, and then what is left, come in push order. -/
theorem History.stolen_sublist (hhistory : History trace content) :
    (stolenValues trace ++ content).Sublist (pushedValues trace) := by
  induction hhistory with
  | empty => exact .refl _
  | @snoc trace content event after _ hlegal ih =>
      simp only [pushedValues, stolenValues, filterMap_snoc] at ih ⊢
      cases event with
      | pushed value =>
          obtain rfl := hlegal
          simpa [Event.pushedValue?, Event.stolenValue?] using ih.append_right [value]
      | popped value =>
          obtain rfl := hlegal
          have hshorter : (trace.filterMap Event.stolenValue? ++ after).Sublist
              (trace.filterMap Event.stolenValue? ++ (after ++ [value])) :=
            (List.sublist_append_left after [value]).append_left _
          simpa [Event.pushedValue?, Event.stolenValue?] using hshorter.trans ih
      | popEmpty =>
          obtain ⟨rfl, rfl⟩ := hlegal
          simpa [Event.pushedValue?, Event.stolenValue?] using ih
      | stolen value =>
          obtain rfl := hlegal
          simpa [Event.pushedValue?, Event.stolenValue?] using ih

/-- Every event of a history was legal where it happened. -/
theorem History.legal_at (hhistory : History trace content)
    {earlier later : List (Event T)} {event : Event T}
    (htrace : trace = earlier ++ event :: later) :
    ∃ before after, History earlier before ∧ Legal before event after := by
  induction hhistory generalizing later with
  | empty => simp at htrace
  | @snoc trace content last after hhistory hlegal ih =>
      rcases List.eq_nil_or_concat later with rfl | ⟨rest, final, rfl⟩
      · obtain ⟨rfl, hlast⟩ := List.append_inj' htrace rfl
        obtain rfl : last = event := by simpa using hlast
        exact ⟨content, after, hhistory, hlegal⟩
      · have hsplit : trace ++ [last] =
            (earlier ++ event :: rest) ++ [final] := by
          simpa using htrace
        exact ih (List.append_inj' hsplit rfl).1

end Values

/-- The logical deque of a run: every operation did to it what a sequential
deque would have done. -/
structure Linear (trace : List (Event T)) (state : State T)
    (content : List T) : Prop where
  history : History trace content
  /-- Between two operations of the owner it lies between `top` and `bottom`. -/
  quiescent : state.owner = .idle → content = state.contents
  /-- Every pushed value is returned once or still there. -/
  balanced : (pushedValues trace).Perm (returnedValues trace ++ content)
  /-- Thieves obtain values in push order. -/
  stolenInOrder : (stolenValues trace ++ content).Sublist (pushedValues trace)
  /-- A thief takes the oldest value that is left. -/
  stolenOldest : ∀ earlier later value,
    trace = earlier ++ .stolen value :: later →
      ∃ rest, History earlier (value :: rest)
  /-- A pop takes the newest value that is left. -/
  poppedNewest : ∀ earlier later value,
    trace = earlier ++ .popped value :: later →
      ∃ rest, History earlier (rest ++ [value])
  /-- A pop comes back with nothing only from an empty deque. -/
  emptyPop : ∀ earlier later, trace = earlier ++ .popEmpty :: later →
    History earlier []

/-- For every program of the owner, number of thieves and interleaving, also
across growth, the deque is linear. -/
theorem chaseLev_linear [Inhabited T] (extraLog : ℕ) {trace : List (Event T)}
    {state : State T}
    (run : Reaches (chaseLev T) (start extraLog) trace state) :
    ∃ content, Linear trace state content := by
  have hinv := inv_run run
  refine ⟨state.logical, hinv.history, ?_, hinv.history.perm,
    hinv.history.stolen_sublist, ?_, ?_, ?_⟩
  · intro hidle
    simp [State.logical, State.contents, State.logicalBottom, hidle]
  · intro earlier later value htrace
    obtain ⟨before, after, hearlier, hlegal⟩ := hinv.history.legal_at htrace
    exact ⟨after, hlegal ▸ hearlier⟩
  · intro earlier later value htrace
    obtain ⟨before, after, hearlier, hlegal⟩ := hinv.history.legal_at htrace
    exact ⟨after, hlegal ▸ hearlier⟩
  · intro earlier later htrace
    obtain ⟨before, after, hearlier, hlegal⟩ := hinv.history.legal_at htrace
    exact hlegal.1 ▸ hearlier

/-- Two pushes, a steal that races the owner's last pop, and loses. -/
theorem chaseLev_linear_race :
    ∃ trace state content, stolenValues trace = [7] ∧
      returnedValues trace = [7, 8] ∧
      Linear (trace : List (Event ℕ)) state content := by
  obtain ⟨trace, state, run, hvalues⟩ :=
    reaches_of_check (chaseLev ℕ) (start 0)
      (List.flatten
        [[.push 7], List.replicate 3 .ownerStep,
          [.push 8], List.replicate 3 .ownerStep,
          [.steal 0], List.replicate 5 (.thiefStep 0),
          [.steal 1], List.replicate 4 (.thiefStep 1),
          [.pop], List.replicate 5 .ownerStep, [.thiefStep 1]])
      (fun trace _ => stolenValues trace = [7] && returnedValues trace = [7, 8])
      (by decide)
  obtain ⟨content, hlinear⟩ := chaseLev_linear 0 run
  simp only [Bool.and_eq_true, decide_eq_true_eq] at hvalues
  exact ⟨trace, state, content, hvalues.1, hvalues.2, hlinear⟩

end Citor.ChaseLev
