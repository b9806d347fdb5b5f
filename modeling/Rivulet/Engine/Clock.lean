import Rivulet.Engine.Machine

/-!
# Time

Time stands still while a program runs and jumps ahead when something is waited for. Values
that come too late for those who asked for them reach their cache when their moment is over.
-/

namespace Rivulet.Engine

/-- Puts a late value among those on their way, by the moment at which it is there; of two
for one moment the earlier one stays first. -/
def insertLate (l : Late) : List Late → List Late
  | [] => [l]
  | m :: rest => if l.due < m.due then l :: m :: rest else m :: insertLate l rest

/-- Lets a late value reach its cache. -/
def State.arrive (s : State) (l : Late) : State := s.modifyCache l.cache (·.insert l.key l.value)

/-- Moves time ahead to a moment. What is due at that very moment arrives only if the wait goes
`through` it, which it does when something that runs on its own has to end for it. -/
def State.advanceTo (s : State) (moment : Nat) (through : Bool) : State :=
  let arrived := s.late.takeWhile fun l => l.due < moment || (through && l.due = moment)
  let s := arrived.foldl arrive s
  { s with clock := moment, late := s.late.drop arrived.length }

/-- Moves time ahead by a number of milliseconds. -/
def wait (ms : Nat) (through : Bool) : Run Unit :=
  modify fun s => s.advanceTo (s.clock + ms) through

/-- Moves time ahead up to a moment. -/
def advance (ms : Nat) : Run Unit := wait ms false

/-- Sends late values on their way. -/
def sendLate (late : List Late) : Run Unit :=
  modify fun s => { s with late := late.foldl (fun ls l => insertLate l ls) s.late }

end Rivulet.Engine
