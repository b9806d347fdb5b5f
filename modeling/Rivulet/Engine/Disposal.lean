import Rivulet.Engine.Scheduling

/-!
# Ending scopes and reporting errors

A scope ends with its children first, in the order of their creation, then its cleanups, then
its computations, and all of it inside a batch. An error goes to the nearest scope that takes
errors; one that nobody takes is put off until the flush is over.
-/

namespace Rivulet.Engine

/-- Ends an effect that was taken out of the graph, with its scope. -/
def endRemoved (κ : Kernel) (id : NodeId) (removed : Option Graph.Node) : Run Unit := do
  match removed, (← get).effect? id with
  | some _, some e =>
    modify (·.modifyEffect id ({ · with disposed := true }))
    κ.dispose e.scope
  | _, _ => return

/-- Takes a node that is in use out of the graph. -/
def removeNode (κ : Kernel) (id : NodeId) : Run Unit := do
  let removed ← modifyGet fun s => ((s.graph.remove id).2, s.detach id)
  endRemoved κ id removed

/-- Takes a node out of the graph for good. -/
def retire (κ : Kernel) (id : NodeId) : Run Unit := holding id (removeNode κ id)

/-- Undoes what a cleanup is there for. -/
def runCleanup (κ : Kernel) : Cleanup → Run Unit
  | .program p => κ.perform p
  | .unlisten document node listener =>
    modify (·.modifyDocument document (·.unlisten node listener))

/-- Ends all that a scope owned. -/
def teardown (κ : Kernel) (h : Scopes.Holdings Cleanup) : Run Unit := do
  h.children.forM κ.dispose
  h.cleanups.forM (runCleanup κ)
  h.computations.forM (retire κ)

/-- Takes a scope away and ends all that it owned. -/
def removeScope (κ : Kernel) (id : ScopeId) : Run Unit := do
  let removed ← modifyGet fun s =>
    let (removed, scopes) := s.scopes.remove id
    (removed, { s with scopes })
  match removed with
  | none => return
  | some scope => guarding State.sweep (teardown κ scope.holdings)

/-- Ends a scope. -/
def disposeScope (κ : Kernel) (id : ScopeId) : Run Unit := batch κ (removeScope κ id)

/-- Ends all that a scope owns, but not the scope. -/
def resetScope (κ : Kernel) (id : ScopeId) : Run Unit := do
  let owned ← modifyGet fun s =>
    let (owned, scopes) := s.scopes.strip id
    (owned, { s with scopes })
  match owned with
  | none => return
  | some h => teardown κ h

/-- Ends an effect. -/
def stopEffect (κ : Kernel) (id : NodeId) : Run Unit :=
  holding id do
    retire κ id
    match (← get).effect? id with
    | some e =>
      unless e.disposed do
        modify (·.modifyEffect id ({ · with disposed := true }))
        κ.dispose e.scope
    | none => return

/-- Puts something off until the flush is over. -/
def defer (task : Deferred) : Run Unit :=
  modify fun s => { s with deferred := s.deferred ++ [task] }

/-- Hands an error to a boundary. Until its first drawing is over it collects errors, and
from then on it switches to its fallback when the flush is over. -/
def catchError (b : BoundaryId) (error : String) : Run Unit := do
  match (← get).boundary? b with
  | none => return
  | some boundary =>
    if boundary.armed then defer (.fallback b error)
    else modify (·.modifyBoundary b fun x => { x with errors := x.errors ++ [error] })

/-- Passes on an error that was raised in a scope, or nowhere. -/
def reportError (κ : Kernel) (scope : Option ScopeId) (error : String) : Run Unit := do
  match scope.bind (← get).scopes.findHandler with
  | some (.program p) => κ.perform (p (.str error))
  | some (.boundary b) => catchError b error
  | none => defer (.uncaught error)

/-- Surfaces an error that nobody took. -/
def surfaceUncaught (κ : Kernel) (error : String) : Run Unit := do
  match (← get).uncaught with
  | some p => κ.perform (p (.str error))
  | none => panicWith ("uncaught error in reactive computation: " ++ error)

end Rivulet.Engine
