import Rivulet.Graph.Basic

/-!
# The effect queue

When effects run. Those a write has reached wait here, each once, in the order in which they
were first scheduled, until no batch and no flush is open.
-/

namespace Rivulet

/-- Waiting effects, and what holds them back. -/
structure Queue where
  /-- The effects that are due, first come first served. -/
  pending : List NodeId := []
  /-- How many batches are open. -/
  batches : Nat := 0
  /-- Whether a flush is running. -/
  flushing : Bool := false
  deriving DecidableEq, Repr

namespace Queue

/-- Lets an effect wait; one that waits already keeps its place. -/
def schedule (q : Queue) (id : NodeId) : Queue :=
  if id ∈ q.pending then q else { q with pending := q.pending ++ [id] }

/-- Lets several effects wait, one after the other. -/
def scheduleAll (q : Queue) (ids : List NodeId) : Queue := ids.foldl schedule q

/-- Takes the effect that has waited longest. -/
def pop (q : Queue) : Option NodeId × Queue :=
  match q.pending with
  | [] => (none, q)
  | id :: rest => (some id, { q with pending := rest })

/-- Lets an effect wait no longer. -/
def remove (q : Queue) (id : NodeId) : Queue := { q with pending := q.pending.filter (· ≠ id) }

/-- Lets no effect wait any longer. -/
def clear (q : Queue) : Queue := { q with pending := [] }

/-- Whether an effect waits. -/
def isPending (q : Queue) (id : NodeId) : Bool := id ∈ q.pending

/-- Opens a batch. -/
def enterBatch (q : Queue) : Queue := { q with batches := q.batches + 1 }

/-- Closes a batch, if one is open. -/
def exitBatch (q : Queue) : Queue := { q with batches := q.batches - 1 }

/-- Whether a batch is open. -/
def isBatching (q : Queue) : Bool := 0 < q.batches

/-- Whether a write may run the waiting effects at once. -/
def canFlush (q : Queue) : Bool := !q.flushing && q.batches = 0

/-- Starts a flush, unless one is running. -/
def beginFlush (q : Queue) : Option Queue :=
  if q.flushing then none else some { q with flushing := true }

/-- Ends the flush. -/
def endFlush (q : Queue) : Queue := { q with flushing := false }

end Queue

end Rivulet
