import Rivulet.Engine.State

/-!
# Running

A run changes the state and may be interrupted: by a breakdown, which leaves the state as it
was at that point, or because it went too deep. Whatever was entered is left again on the
way out. The parts of the engine call each other through a kernel, which knows how deep they
may still go.
-/

namespace Rivulet.Engine

/-- Why a run ends early. -/
inductive Interrupt where
  /-- Something broke down. -/
  | panic (message : String)
  /-- The run went too deep. -/
  | outOfFuel
  deriving DecidableEq, Repr

/-- A run. -/
abbrev Run := EStateM Interrupt State

/-- Breaks down. -/
def panicWith {α : Type} (message : String) : Run α := throw (.panic message)

/-- Runs something and restores part of the state, whether or not it was interrupted. -/
def guarding {α : Type} (restore : State → State) (body : Run α) : Run α := fun s =>
  match body s with
  | .ok a s => .ok a (restore s)
  | .error e s => .error e (restore s)

/-- Runs something and restores part of the state if it was interrupted. -/
def onInterrupt {α : Type} (restore : State → State) (body : Run α) : Run α := fun s =>
  match body s with
  | .ok a s => .ok a s
  | .error e s => .error e (restore s)

/-- What the parts of the engine ask of each other. -/
inductive Call where
  /-- To run a program. -/
  | exec (p : Program)
  /-- To bring a node up to date. -/
  | refresh (id : NodeId)
  /-- To read a computed value. -/
  | read (id : NodeId)
  /-- To dispose a scope. -/
  | dispose (scope : ScopeId)
  /-- To do what was put off. -/
  | drain
  /-- To pass on an error that was raised in a scope, or nowhere. -/
  | report (scope : Option ScopeId) (error : String)

/-- How calls are answered. -/
abbrev Kernel := Call → Run Outcome

namespace Kernel

/-- Runs a program. -/
def exec (κ : Kernel) (p : Program) : Run Outcome := κ (.exec p)

/-- Runs a program for its value. -/
def eval (κ : Kernel) (p : Program) : Run Json := return (← κ.exec p).get

/-- Runs a program and ignores how it ends. -/
def perform (κ : Kernel) (p : Program) : Run Unit := do let _ ← κ.exec p

/-- Brings a node up to date. -/
def refresh (κ : Kernel) (id : NodeId) : Run Unit := do let _ ← κ (.refresh id)

/-- Reads a computed value. -/
def read (κ : Kernel) (id : NodeId) : Run Json := return (← κ (.read id)).get

/-- Disposes a scope. -/
def dispose (κ : Kernel) (scope : ScopeId) : Run Unit := do let _ ← κ (.dispose scope)

/-- Does what was put off. -/
def drain (κ : Kernel) : Run Unit := do let _ ← κ .drain

/-- Reports an error. -/
def report (κ : Kernel) (scope : Option ScopeId) (error : String) : Run Unit := do
  let _ ← κ (.report scope error)

end Kernel

/-- Runs something with a scope current. -/
def withScope {α : Type} (scope : ScopeId) (body : Run α) : Run α := do
  modify (·.modifyScopes (·.enter scope))
  guarding (·.modifyScopes (·.leave scope)) body

/-- Runs something with reads going unrecorded. -/
def untracked {α : Type} (body : Run α) : Run α := do
  modify (·.modifyTracking (·.enter .untracked))
  guarding (·.modifyTracking (·.leave.2)) body

/-- Closes the innermost section. What was read in it replaces what the node read before. -/
def State.endRun (s : State) (id : NodeId) : State :=
  { s with
    tracking := s.tracking.leave.2
    graph := s.graph.setDependencies id s.tracking.leave.1 }

/-- Runs something as a computation. What it reads replaces what the node read before, unless
the run is interrupted. -/
def tracked {α : Type} (id : NodeId) (observer : Tracking.Observer) (body : Run α) : Run α := do
  modify (·.modifyTracking (·.enter observer))
  let a ← onInterrupt (·.modifyTracking (·.leave.2)) body
  modify (·.endRun id)
  return a

end Rivulet.Engine
