import Rivulet.Engine.Disposal

/-!
# Creating computations

An effect belongs to the scope that is current when it is created, runs once at once, and has
a scope of its own for what its program creates. A computed value is not computed before it
is read.
-/

namespace Rivulet.Engine

/-- Gives a computation to the current scope, if there is a live one. -/
def adoptByCurrent (id : NodeId) : Run Unit :=
  modify fun s =>
    match s.scopes.current? with
    | some owner => s.modifyScopes (·.adopt owner id)
    | none => s

/-- Creates a scope under another one, or without a parent. -/
def createScope (parent : Option ScopeId) : Run ScopeId :=
  modifyGet fun s =>
    let (id, scopes) := s.scopes.create parent
    (id, { s with scopes })

/-- Runs an effect for the first time and lets a name stand for it. -/
def startEffect (κ : Kernel) (id : NodeId) (name : Option String) : Run Unit := do
  κ.refresh id
  settle κ
  modify (·.bindName name (.effect id))

/-- Creates an effect, runs it, and lets a name stand for it. -/
def createEffect (κ : Kernel) (reaction : Reaction) (supply : Option Supply)
    (name : Option String) : Run Unit := do
  let scope ← createScope (← get).scopes.current?
  let id ← addNode .effect (.effect { reaction, scope, supply })
  adoptByCurrent id
  holding id (startEffect κ id name)

/-- Creates an effect that no name stands for. -/
def createHiddenEffect (κ : Kernel) (reaction : Reaction) (supply : Option Supply) : Run Unit :=
  createEffect κ reaction supply none

/-- Creates a computed value and lets a name stand for it. -/
def createComputed (name : Option String) (p : Program) : Run Unit := do
  let id ← addNode .derived (.computed p none)
  adoptByCurrent id
  modify (·.bindName name (.computed id))

end Rivulet.Engine
