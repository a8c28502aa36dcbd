import Citor.Core.Interleaving

/-!
# The Chase-Lev deque

One owner pushes, pops and reserves at the bottom, any number of thieves steal
at the top.  A program counter stands in front of the next access to shared
memory, and the accesses are sequentially consistent.  `bottom` and the array
pointer are written by the owner alone, so its own reads of them are no steps;
nor is the copying of live elements into an array nobody else has seen.
-/

namespace Citor.ChaseLev

open Citor.Interleaving

/-- A ring buffer; the capacity is the power of two `2 ^ log`. -/
structure RingArray (T : Type*) where
  log : ℕ
  slots : ℤ → T

section RingArray

variable {T : Type*}

def RingArray.capacity (array : RingArray T) : ℤ :=
  2 ^ array.log

/-- `i & mask`. -/
def RingArray.index (array : RingArray T) (i : ℤ) : ℤ :=
  i % array.capacity

def RingArray.store (array : RingArray T) (i : ℤ) (value : T) : RingArray T :=
  { array with
    slots := Function.update array.slots (array.index i) value }

def RingArray.load (array : RingArray T) (i : ℤ) : T :=
  array.slots (array.index i)

/-- `allocateArray`: every slot is `T{}`. -/
def allocateArray [Inhabited T] (log : ℕ) : RingArray T where
  log := log
  slots := fun _ => default

/-- Copy `count` live elements from logical index `t` on. -/
def copyLive (old : RingArray T) (t : ℤ) : ℕ → RingArray T → RingArray T
  | 0, new => new
  | count + 1, new =>
      let copied := copyLive old t count new
      copied.store (t + count) (old.load (t + count))

/-- `grow` and the growing part of `reserveOwner`: a fresh array with the live
elements of `[t, b)`. -/
def regrow [Inhabited T] (old : RingArray T) (log : ℕ) (t b : ℤ) :
    RingArray T :=
  copyLive old t (b - t).toNat (allocateArray log)

/-- The doubling loop of `reserveOwner`. -/
def reserveLog (needed log : ℕ) : ℕ :=
  if 2 ^ log < needed + 1 then reserveLog needed (log + 1) else log
termination_by needed + 1 - 2 ^ log
decreasing_by
  have : 2 ^ (log + 1) = 2 * 2 ^ log := by ring
  have := Nat.two_pow_pos log
  omega

end RingArray

/-- Where the owner stands. -/
inductive OwnerPc (T : Type*)
  | idle
  /-- `push`: `b` is read, about to load `top`. -/
  | pushTop (value : T) (b : ℤ)
  /-- The array is full; about to publish a grown one. -/
  | pushGrow (value : T) (b t : ℤ)
  | pushStore (value : T) (b : ℤ)
  | pushBottom (value : T) (b : ℤ)
  | reserveTop (needed : ℕ) (b : ℤ)
  | reserveGrow (needed : ℕ) (b t : ℤ)
  /-- `pop`: about to lower `bottom` to `b`. -/
  | popLower (b : ℤ)
  | popTop (b : ℤ)
  /-- More than one element: the load is uncontended. -/
  | popTake (b : ℤ)
  /-- The last element; about to load it. -/
  | popLast (b : ℤ)
  | popRace (b : ℤ) (value : T)
  | popRestore (b : ℤ)

/-- Where a thief stands. -/
inductive ThiefPc (T : Type*)
  | idle
  | stealTop
  | stealBottom (t : ℤ)
  | stealArray (t : ℤ)
  | stealLoad (t : ℤ) (array : ℕ)
  | stealRace (t : ℤ) (value : T)

/-- What an operation does to the logical deque, at the access that decides
it. -/
inductive Event (T : Type*)
  | pushed (value : T)
  | popped (value : T)
  /-- A pop returns nothing. -/
  | popEmpty
  | stolen (value : T)

/-- Superseded arrays stay allocated: `arrays` keeps every array by the order of
its allocation. -/
structure State (T : Type*) where
  top : ℤ
  bottom : ℤ
  arrays : ℕ → RingArray T
  current : ℕ
  owner : OwnerPc T
  thief : ℕ → ThiefPc T

inductive Action (T : Type*)
  | push (value : T)
  | reserve (needed : ℕ)
  | pop
  | ownerStep
  | steal (thief : ℕ)
  | thiefStep (thief : ℕ)

section Machine

variable {T : Type*}

def State.array (state : State T) : RingArray T :=
  state.arrays state.current

/-- Allocate the next array and publish it. -/
def State.publish (state : State T) (array : RingArray T) : State T :=
  { state with
    arrays := Function.update state.arrays (state.current + 1) array
    current := state.current + 1 }

/-- Store into the array the owner uses. -/
def State.storeSlot (state : State T) (i : ℤ) (value : T) : State T :=
  { state with
    arrays := Function.update state.arrays state.current
      (state.array.store i value) }

def State.setThief (state : State T) (thief : ℕ) (pc : ThiefPc T) : State T :=
  { state with thief := Function.update state.thief thief pc }

/-- The owner's next shared access. -/
def stepOwner [Inhabited T] (state : State T) :
    Option (State T × Option (Event T)) :=
  match state.owner with
  | .idle => none
  | .pushTop value b =>
      if b - state.top ≥ state.array.capacity - 1 then
        some ({ state with owner := .pushGrow value b state.top }, none)
      else some ({ state with owner := .pushStore value b }, none)
  | .pushGrow value b t =>
      some ({ state.publish (regrow state.array (state.array.log + 1) t b) with
        owner := .pushStore value b }, none)
  | .pushStore value b =>
      some ({ state.storeSlot b value with owner := .pushBottom value b }, none)
  | .pushBottom value b =>
      some ({ state with bottom := b + 1, owner := .idle },
        some (.pushed value))
  | .reserveTop needed b =>
      some ({ state with owner := .reserveGrow needed b state.top }, none)
  | .reserveGrow needed b t =>
      some ({ state.publish
          (regrow state.array (reserveLog needed state.array.log) t b) with
        owner := .idle }, none)
  | .popLower b =>
      some ({ state with bottom := b, owner := .popTop b }, none)
  | .popTop b =>
      if state.top > b then
        some ({ state with owner := .popRestore b }, some .popEmpty)
      else if state.top ≠ b then
        some ({ state with owner := .popTake b }, none)
      else some ({ state with owner := .popLast b }, none)
  | .popTake b =>
      some ({ state with owner := .idle }, some (.popped (state.array.load b)))
  | .popLast b =>
      some ({ state with owner := .popRace b (state.array.load b) }, none)
  | .popRace b value =>
      if state.top = b then
        some ({ state with top := b + 1, owner := .popRestore b },
          some (.popped value))
      else some ({ state with owner := .popRestore b }, some .popEmpty)
  | .popRestore b =>
      some ({ state with bottom := b + 1, owner := .idle }, none)

/-- A thief's next shared access. -/
def stepThief (state : State T) (thief : ℕ) :
    Option (State T × Option (Event T)) :=
  match state.thief thief with
  | .idle => none
  | .stealTop =>
      some (state.setThief thief (.stealBottom state.top), none)
  | .stealBottom t =>
      if t ≥ state.bottom then some (state.setThief thief .idle, none)
      else some (state.setThief thief (.stealArray t), none)
  | .stealArray t =>
      some (state.setThief thief (.stealLoad t state.current), none)
  | .stealLoad t array =>
      some (state.setThief thief
        (.stealRace t ((state.arrays array).load t)), none)
  | .stealRace t value =>
      if state.top = t then
        some ({ state with top := t + 1 }.setThief thief .idle,
          some (.stolen value))
      else some (state.setThief thief .idle, none)

/-- The deque with its owner and its thieves. -/
def chaseLev (T : Type*) [Inhabited T] :
    Machine (State T) (Action T) (Event T) where
  step state
    | .push value =>
        match state.owner with
        | .idle =>
            some ({ state with owner := .pushTop value state.bottom }, none)
        | _ => none
    | .reserve needed =>
        match state.owner with
        | .idle =>
            if (needed : ℤ) + 1 ≤ state.array.capacity then some (state, none)
            else some ({ state with
              owner := .reserveTop needed state.bottom }, none)
        | _ => none
    | .pop =>
        match state.owner with
        | .idle =>
            some ({ state with owner := .popLower (state.bottom - 1) }, none)
        | _ => none
    | .ownerStep => stepOwner state
    | .steal thief =>
        match state.thief thief with
        | .idle => some (state.setThief thief .stealTop, none)
        | _ => none
    | .thiefStep thief => stepThief state thief

/-- A fresh deque; the constructor clamps the capacity to at least 64. -/
def start [Inhabited T] (extraLog : ℕ) : State T where
  top := 0
  bottom := 0
  arrays := fun _ => allocateArray (6 + extraLog)
  current := 0
  owner := .idle
  thief := fun _ => .idle

/-- The values at the logical indices `[lo, hi)`, oldest first. -/
def RingArray.window (array : RingArray T) (lo hi : ℤ) : List T :=
  (List.range (hi - lo).toNat).map fun offset : ℕ => array.load (lo + offset)

/-- The content between `top` and `bottom`. -/
def State.contents (state : State T) : List T :=
  state.array.window state.top state.bottom

end Machine

/-! ## The deque the operations implement -/

section Sequential

variable {T : Type*}

/-- One operation of a sequential deque: `none` if its result is wrong. -/
def Legal : List T → Event T → List T → Prop
  | content, .pushed value, after => after = content ++ [value]
  | content, .popped value, after => content = after ++ [value]
  | content, .popEmpty, after => content = [] ∧ after = []
  | content, .stolen value, after => content = value :: after

/-- A trace is a history of a sequential deque that ends with `content`. -/
inductive History : List (Event T) → List T → Prop
  | empty : History [] []
  | snoc {trace content event after} : History trace content →
      Legal content event after → History (trace ++ [event]) after

end Sequential

end Citor.ChaseLev
