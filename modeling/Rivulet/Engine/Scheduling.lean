import Rivulet.Engine.Ownership

/-!
# When effects run

A write lets the effects that it reaches wait, and they run as soon as no batch and no flush
is open. A flush takes them one after the other, with what comes along meanwhile, and gives
up on a loop that does not end. What was put off is done behind it.
-/

namespace Rivulet.Engine

/-- How many effects a flush takes before it gives up. -/
def flushLimit : Nat := 100000

/-- Brings the waiting effects up to date, at most the given number of them, and drops the
rest. -/
def runWaiting (κ : Kernel) : Nat → Run Unit
  | 0 => modify (·.modifyQueue Queue.clear)
  | n + 1 => do
    let next ← modifyGet fun s =>
      let (next, queue) := s.queue.pop
      (next, { s with queue })
    match next with
    | none => return
    | some id =>
      κ.refresh id
      runWaiting κ n

/-- Runs the waiting effects, and then what was put off. -/
def flush (κ : Kernel) : Run Unit := do
  match (← get).queue.beginFlush with
  | none => return
  | some queue =>
    modify ({ · with queue })
    guarding (·.modifyQueue Queue.endFlush) (runWaiting κ flushLimit)
    κ.drain

/-- Runs the waiting effects, unless a batch or a flush is open. -/
def settle (κ : Kernel) : Run Unit := do
  if (← get).queue.canFlush then flush κ

/-- Runs something with the effects waiting for its end. -/
def batch {α : Type} (κ : Kernel) (body : Run α) : Run α := do
  modify (·.modifyQueue Queue.enterBatch)
  let a ← onInterrupt (·.modifyQueue Queue.exitBatch) body
  modify (·.modifyQueue Queue.exitBatch)
  settle κ
  return a

/-- Marks what depends on a node that has changed; the effects among it have to wait. -/
def State.markChanged (s : State) (id : NodeId) : State :=
  { s with
    graph := (s.graph.markChanged id).1
    queue := s.queue.scheduleAll (s.graph.markChanged id).2 }

/-- Lets everyone know that the value behind a node has changed. -/
def notify (κ : Kernel) (id : NodeId) : Run Unit := do
  modify (·.markChanged id)
  settle κ

/-- What a write during the evaluation of a computed value says. -/
def forbiddenWrite : String := "signal written while evaluating a computed"

/-- Breaks down if a computed value is being evaluated. -/
def ensureWritable : Run Unit := do
  if (← get).tracking.inDerived then panicWith forbiddenWrite

/-- Puts a new value behind a node and lets everyone know. -/
def replaceValue (κ : Kernel) (id : NodeId) (cell : Cell) : Run Unit := do
  modify (·.setCell id cell)
  notify κ id

/-- Has an effect wait as if what it reads had changed. -/
def scheduleEffect (κ : Kernel) (id : NodeId) : Run Unit := do
  modify fun s =>
    if s.graph.contains id then
      { s with graph := s.graph.request id .dirty, queue := s.queue.schedule id }
    else s
  settle κ

end Rivulet.Engine
