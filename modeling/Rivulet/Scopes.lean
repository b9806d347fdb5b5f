import Rivulet.Graph.Basic

/-!
# Disposal scopes

A forest of scopes. A scope owns what is to be undone when it ends: its child scopes, the
cleanups registered on it and the computations created while it was current. A stack says
which scope is current. What a cleanup is and who handles an error is left open here.
-/

namespace Rivulet

/-- The identity of a scope. -/
structure ScopeId where
  /-- The number given at creation; no number is given twice. -/
  index : Nat
  deriving DecidableEq, Hashable, Repr, Inhabited

namespace Scopes

/-- What a scope owns. -/
structure Holdings (Cleanup : Type) where
  /-- The child scopes, in the order of creation. -/
  children : List ScopeId := []
  /-- The cleanups, in the order of registration. -/
  cleanups : List Cleanup := []
  /-- The computations, in the order of creation. -/
  computations : List NodeId := []

/-- A live scope. -/
structure Scope (Cleanup Handler : Type) where
  /-- The scope this one is a child of. -/
  parent : Option ScopeId
  /-- What the scope owns. -/
  holdings : Holdings Cleanup := {}
  /-- Who takes the errors raised here or further down. -/
  handler : Option Handler := none

end Scopes

/-- The live scopes, and which of them are current. -/
structure Scopes (Cleanup Handler : Type) where
  /-- The live scopes by their identity. -/
  live : Std.HashMap ScopeId (Scopes.Scope Cleanup Handler) := ∅
  /-- The scopes that were made current, innermost first; they need not be live. -/
  stack : List ScopeId := []
  /-- The number of the next scope. -/
  next : Nat := 0

namespace Scopes

variable {Cleanup Handler : Type}

/-- Whether a scope is gone or never was. -/
def isDisposed (t : Scopes Cleanup Handler) (id : ScopeId) : Bool := !t.live.contains id

/-- The number of live scopes. -/
def size (t : Scopes Cleanup Handler) : Nat := t.live.size

/-- The scope that cleanups and new computations attach to. -/
def current? (t : Scopes Cleanup Handler) : Option ScopeId := t.stack.head?

/-- Changes a scope, if it is live. -/
def modify (t : Scopes Cleanup Handler) (id : ScopeId)
    (f : Scope Cleanup Handler → Scope Cleanup Handler) : Scopes Cleanup Handler :=
  { t with live := t.live.modify id f }

/-- Changes what a scope owns, if it is live. -/
def modifyHoldings (t : Scopes Cleanup Handler) (id : ScopeId)
    (f : Holdings Cleanup → Holdings Cleanup) : Scopes Cleanup Handler :=
  t.modify id fun s => { s with holdings := f s.holdings }

/-- Creates a scope under the given one. A parent that is gone gives a root. -/
def create (t : Scopes Cleanup Handler) (parent : Option ScopeId) :
    ScopeId × Scopes Cleanup Handler :=
  let id : ScopeId := ⟨t.next⟩
  let parent := parent.filter t.live.contains
  let t := match parent with
    | none => t
    | some p => t.modifyHoldings p fun h => { h with children := h.children ++ [id] }
  (id, { t with live := t.live.insert id { parent }, next := t.next + 1 })

/-- Makes a scope current. -/
def enter (t : Scopes Cleanup Handler) (id : ScopeId) : Scopes Cleanup Handler :=
  { t with stack := id :: t.stack }

/-- Takes the innermost entry of a scope off the stack, wherever it stands. -/
def leave (t : Scopes Cleanup Handler) (id : ScopeId) : Scopes Cleanup Handler :=
  { t with stack := t.stack.erase id }

/-- Registers a cleanup on the current scope; `none` when there is no live one. -/
def addCleanup? (t : Scopes Cleanup Handler) (cleanup : Cleanup) :
    Option (Scopes Cleanup Handler) := do
  let id ← t.current?
  guard (t.live.contains id)
  return t.modifyHoldings id fun h => { h with cleanups := h.cleanups ++ [cleanup] }

/-- Gives a computation to a scope, if the scope is live. -/
def adopt (t : Scopes Cleanup Handler) (id : ScopeId) (node : NodeId) : Scopes Cleanup Handler :=
  t.modifyHoldings id fun h => { h with computations := h.computations ++ [node] }

/-- Takes a scope out of the forest and gives what it was. Its children stay behind. -/
def remove (t : Scopes Cleanup Handler) (id : ScopeId) :
    Option (Scope Cleanup Handler) × Scopes Cleanup Handler :=
  match t.live[id]? with
  | none => (none, t)
  | some s =>
    let t := { t with live := t.live.erase id }
    let t := match s.parent with
      | none => t
      | some p => t.modifyHoldings p fun h => { h with children := h.children.filter (· ≠ id) }
    (some s, t)

/-- Takes away all that a scope owns and leaves the scope. -/
def strip (t : Scopes Cleanup Handler) (id : ScopeId) :
    Option (Holdings Cleanup) × Scopes Cleanup Handler :=
  match t.live[id]? with
  | none => (none, t)
  | some s => (some s.holdings, t.modifyHoldings id fun _ => {})

/-- Makes a scope take the errors of its subtree, if the scope is live. -/
def setHandler (t : Scopes Cleanup Handler) (id : ScopeId) (handler : Handler) :
    Scopes Cleanup Handler :=
  t.modify id fun s => { s with handler := some handler }

/-- Climbs from a scope to the first one with a handler. -/
def climb (t : Scopes Cleanup Handler) : Nat → ScopeId → Option Handler
  | 0, _ => none
  | n + 1, id =>
    match t.live[id]? with
    | none => none
    | some s =>
      match s.handler, s.parent with
      | some handler, _ => some handler
      | none, some p => climb t n p
      | none, none => none

/-- The nearest handler at or above a scope. No path is longer than the number of scopes. -/
def findHandler (t : Scopes Cleanup Handler) (id : ScopeId) : Option Handler :=
  t.climb (t.size + 1) id

end Scopes

end Rivulet
