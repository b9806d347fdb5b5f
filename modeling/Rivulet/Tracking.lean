import Rivulet.Graph.Basic

/-!
# Tracking reads

A stack of running computations. A read belongs to the innermost one, and an untracked
section on top of it hides it from reads. When a computation finishes, what it read comes
out in the order of first reading.
-/

namespace Rivulet.Tracking

/-- What a section of the stack is for. -/
inductive Observer where
  /-- A computed value is being evaluated. -/
  | derived (id : NodeId)
  /-- An effect is running. -/
  | effect (id : NodeId)
  /-- Reads go unrecorded. -/
  | untracked
  deriving DecidableEq, Repr

/-- The node that reads are recorded for. -/
def Observer.node? : Observer → Option NodeId
  | derived id | effect id => some id
  | untracked => none

/-- A section of the stack. -/
structure Section where
  /-- Who is reading. -/
  observer : Observer
  /-- What was read, each node once, in the order of first reading. -/
  reads : List NodeId := []
  deriving DecidableEq, Repr

end Tracking

/-- The running computations, innermost first. -/
structure Tracking where
  /-- The open sections. -/
  sections : List Tracking.Section := []
  deriving DecidableEq, Repr

namespace Tracking

/-- Opens a section. -/
def enter (t : Tracking) (observer : Observer) : Tracking := ⟨{ observer } :: t.sections⟩

/-- Closes the innermost section and gives what was read in it. -/
def leave (t : Tracking) : List NodeId × Tracking :=
  match t.sections with
  | [] => ([], t)
  | s :: rest => (s.reads, ⟨rest⟩)

/-- The node that reads are recorded for at this moment. -/
def observer? (t : Tracking) : Option NodeId := t.sections.head?.bind (·.observer.node?)

/-- Whether reads are recorded at this moment. -/
def isActive (t : Tracking) : Bool := t.observer?.isSome

/-- Records a read, once per node and section. -/
def record (t : Tracking) (id : NodeId) : Tracking :=
  match t.sections with
  | [] => t
  | s :: rest =>
    if s.observer.node?.isSome ∧ id ∉ s.reads then ⟨{ s with reads := s.reads ++ [id] } :: rest⟩
    else t

/-- What was read so far in the innermost section. -/
def reads (t : Tracking) : List NodeId := (t.sections.head?.map (·.reads)).getD []

/-- Whether a computed value is being evaluated; untracked sections are looked through. -/
def inDerived (t : Tracking) : Bool :=
  match t.sections.find? fun s => s.observer ≠ .untracked with
  | some ⟨.derived _, _⟩ => true
  | _ => false

/-- Whether a node is running anywhere on the stack. -/
def isRunning (t : Tracking) (id : NodeId) : Bool :=
  t.sections.any fun s => s.observer.node? = some id

end Rivulet.Tracking
