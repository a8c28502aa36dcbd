import Citor.Core.MachineWord

/-!
# The victim of a steal

A drain that finds its own deque empty probes one other deque in a round of its
loop: the one it last stole from, or one that `trySteal` draws with the drain's
own generator from the pool's victim lists.  What a pop or a steal finds is left
open.
-/

namespace Citor.VictimSelection

open MachineWord

/-! ## The generator -/

/-- `self` is the address of the pool. -/
def xorshiftSeed (self slot : ℕ) : ℕ :=
  let s := 0x9E3779B97F4A7C15 ^^^ word (slot * 0xBF58476D1CE4E5B9) ^^^ self
  if s = 0 then 1 else s

def xorshiftNext (state : ℕ) : ℕ :=
  let s := state ^^^ word (state <<< 13)
  let s := s ^^^ (s >>> 7)
  s ^^^ word (s <<< 17)

/-- A draw in `[0, n)` from the upper half of `x`. -/
def fastRange32 (x n : ℕ) : ℕ :=
  (word ((x >>> 32) * n) >>> 32) % 2 ^ 32

/-! ## The victim lists -/

/-- What the victim lists are built from; `uint32Max` is the CCD of a slot that
has none. -/
structure Pool where
  self : ℕ
  participants : ℕ
  ccdOfSlot : ℕ → ℕ
  self_lt : self < 2 ^ 64
  participants_lt : participants < 2 ^ 32

section Lists

variable (pool : Pool) (self : ℕ)

def allVictims : List ℕ :=
  (List.range pool.participants).filter fun v => v ≠ self

def onSelfCcd (v : ℕ) : Bool :=
  pool.ccdOfSlot self ≠ uint32Max && pool.ccdOfSlot v = pool.ccdOfSlot self

def sameCcdVictims : List ℕ :=
  (allVictims pool self).filter fun v => onSelfCcd pool self v

def crossCcdVictims : List ℕ :=
  (allVictims pool self).filter fun v => !onSelfCcd pool self v

/-- A slot of a list, by the draw `x`. -/
def pick (row : List ℕ) (x : ℕ) : Option ℕ :=
  row[fastRange32 x row.length]?

/-- `trySteal` up to the steal: the generator behind it and the slot that it
probes, if it probes any. -/
def trySteal (preferSameCcd : Bool) (rng : ℕ) : ℕ × Option ℕ :=
  if pool.participants ≤ 1 then (rng, none)
  else if preferSameCcd then
    let rolled := xorshiftNext rng
    let tryCross := rolled &&& 7 = 0
    let same := sameCcdVictims pool self
    let cross := crossCcdVictims pool self
    if ¬ tryCross ∧ same ≠ [] then
      (xorshiftNext rolled, pick same (xorshiftNext rolled))
    else if 0 < cross.length then
      (xorshiftNext rolled, pick cross (xorshiftNext rolled))
    else (rolled, none)
  else
    (xorshiftNext rng, pick (allVictims pool self) (xorshiftNext rng))

end Lists

/-! ## The drain -/

/-- `runForkJoinDrain` between two rounds of its loop. -/
structure Drain where
  rng : ℕ
  lastVictim : ℕ
  deriving DecidableEq, Repr

/-- What a round meets: whether a pop, a steal from the last victim and a steal
from the drawn one find a task. -/
structure Round where
  popped : Bool
  hotHit : Bool
  drawnHit : Bool

section Rounds

variable (pool : Pool) (slot : ℕ) (preferSameCcd : Bool)

def Drain.start : Drain where
  rng := xorshiftSeed pool.self slot
  lastVictim := pool.participants

/-- The last victim is probed first. -/
def Drain.hinted (drain : Drain) : Bool :=
  drain.lastVictim < pool.participants && drain.lastVictim ≠ slot

/-- The round goes on to `trySteal`. -/
def Drain.seeks (drain : Drain) (round : Round) : Bool :=
  !round.popped && !(drain.hinted pool slot && round.hotHit)

/-- The slot that the round draws and probes. -/
def Drain.draws (drain : Drain) (round : Round) : Option ℕ :=
  if drain.seeks pool slot round then
    (trySteal pool slot preferSameCcd drain.rng).2
  else none

/-- The slots whose deques the round probes, in order. -/
def Drain.probes (drain : Drain) (round : Round) : List ℕ :=
  (if !round.popped && drain.hinted pool slot then [drain.lastVictim]
    else []) ++ (drain.draws pool slot preferSameCcd round).toList

/-- The drain behind a round. -/
def Drain.next (drain : Drain) (round : Round) : Drain :=
  if drain.seeks pool slot round then
    let stale :=
      if drain.hinted pool slot then pool.participants else drain.lastVictim
    let (rng, victim) := trySteal pool slot preferSameCcd drain.rng
    ⟨rng, match victim with
      | some victim => if round.drawnHit then victim else stale
      | none => stale⟩
  else drain

/-- The drain in front of every round. -/
def drainAt (rounds : ℕ → Round) : ℕ → Drain
  | 0 => .start pool slot
  | count + 1 =>
      (drainAt rounds count).next pool slot preferSameCcd (rounds count)

end Rounds

end Citor.VictimSelection
