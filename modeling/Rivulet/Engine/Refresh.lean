import Rivulet.Document.Values
import Rivulet.Engine.Drawing

/-!
# Bringing nodes up to date

A node that may be out of date first has its own sources brought up to date, and runs only if
one of them really changed. A computed value that comes out the same keeps its epoch, so that
nothing that reads it has to run.
-/

namespace Rivulet.Engine

open Hydration

/-- Does what an effect is there for. -/
def react (κ : Kernel) (id : NodeId) (e : Effect) : Run Outcome := do
  match e.reaction with
  | .body p _ => κ.exec p
  | .text document node p =>
    let v ← κ.eval p
    modify (·.modifyDocument document (·.setText node v.display))
    return .value .null
  | .attr document node name p =>
    let v ← κ.eval p
    ensureNode document node
    match v with
    | .null => modify (·.modifyDocument document (·.removeAttr node name))
    | v => modify (·.modifyDocument document (·.setAttr node name v.display))
    return .value .null
  | .region document wrapper p first =>
    withSupply e.supply do
      let d ← match first with
        | some h =>
          modify (·.modifyEffect id ({ · with reaction := .region document wrapper p none }))
          let frame := Frame.open ((← get).document document) wrapper h.mode
          pure { document, report := h.report, flag := h.flag, cursor := ⟨[frame], none⟩ }
        | none =>
          modify (·.modifyDocument document (·.clear wrapper))
          newDrawing document wrapper .create
      drawing d (κ.perform p)
      return .value .null
  | .insert document wrapper p first =>
    let fragments := (← κ.eval p).items.map Fragment.ofJson
    modify (·.modifyDocument document fun d =>
      (d.clear wrapper).plantUnder wrapper (Fragment.trees fragments))
    match first with
    | none => return .value .null
    | some report =>
      modify (·.modifyEffect id ({ · with reaction := .insert document wrapper p none }))
      modify (·.modifyReport report (·.addCreated (Fragment.sizes fragments)))
      return .value .null

/-- Whether a failure of an effect counts as an error. -/
def Reaction.isFallible : Reaction → Bool
  | .body _ fallible => fallible
  | _ => false

/-- Counts the run of an effect, and reports what it failed with if it is one that may fail. -/
def finishReaction (κ : Kernel) (id : NodeId) (e : Effect) (outcome : Outcome) : Run Unit := do
  modify (·.modifyEffect id fun e => { e with runs := e.runs + 1 })
  match outcome with
  | .failure error => if e.reaction.isFallible then κ.report (some e.scope) error
  | .value _ => return

/-- Has an effect react with its scope current, and reports what it fails with. -/
def runReaction (κ : Kernel) (id : NodeId) (e : Effect) : Run Unit := do
  let outcome ← withScope e.scope (tracked id (.effect id) (react κ id e))
  finishReaction κ id e outcome

/-- Runs an effect, unless it was disposed. What its last run created ends first. -/
def runEffect (κ : Kernel) (id : NodeId) : Run Unit := do
  match (← get).effect? id with
  | none => return
  | some e =>
    if e.disposed then return
    resetScope κ e.scope
    runReaction κ id e

/-- Whether a new value is the one that is there already. -/
def isCurrent (old : Option Json) (new : Json) : Bool :=
  match old with
  | some v => v == new
  | none => false

/-- Keeps the value that the computation behind a node gave; the epoch of the node advances if
it is another one than before. -/
def State.keepValue (s : State) (id : NodeId) (new : Json) : State :=
  match s.cells[id]? with
  | some (.computed p old) =>
    if isCurrent old new then s
    else (s.setCell id (.computed p (some new))).modifyGraph (·.bump id)
  | _ => s

/-- Computes a value. -/
def runComputed (κ : Kernel) (id : NodeId) (p : Program) : Run Unit := do
  let new ← tracked id (.derived id) (κ.eval p)
  modify (·.keepValue id new)

/-- Whether something that a node read has changed since. Computed values are brought up to
date for that, until the first one that did. -/
def dependenciesChanged (κ : Kernel) : List Graph.Observed → Run Bool
  | [] => return false
  | seen :: rest => do
    if (← get).graph.isDerived seen.node then κ.refresh seen.node
    if (← get).graph.epoch? seen.node = some seen.epoch then dependenciesChanged κ rest
    else return true

/-- What a computation that reads itself says. -/
def cycleMessage : String := "reactive cycle detected: n# read itself while computing"

/-- Runs what lies behind a node, which counts as clean from then on. -/
def runCell (κ : Kernel) (id : NodeId) (cell : Option Cell) : Run Unit := do
  modify (·.modifyGraph (·.request id .clean))
  match cell with
  | some (.computed p _) => runComputed κ id p
  | some (.effect _) => runEffect κ id
  | _ => return

/-- Runs the computation behind a node. -/
def rerun (κ : Kernel) (id : NodeId) : Run Unit := do
  let s ← get
  if s.tracking.isRunning id then panicWith cycleMessage
  if s.graph.contains id then holding id (runCell κ id s.cells[id]?)

/-- Brings a node up to date. -/
def refresh (κ : Kernel) (id : NodeId) : Run Unit := do
  match (← get).graph.find? id with
  | none => return
  | some n =>
    match n.mark with
    | .clean => return
    | .dirty => rerun κ id
    | .maybeDirty =>
      if ← dependenciesChanged κ n.dependencies then rerun κ id
      else modify (·.modifyGraph (·.request id .clean))

/-- Brings a computed value up to date. One that has left the graph keeps its last value, and is
computed once if it never had one. -/
def ensureFresh (κ : Kernel) (id : NodeId) : Run Unit := do
  let s ← get
  if s.graph.contains id then κ.refresh id
  else
    match s.cells[id]? with
    | some (.computed p none) =>
      let v ← untracked (κ.eval p)
      modify (·.setCell id (.computed p (some v)))
    | _ => return

/-- The value that a computed value keeps. -/
def keptValue (id : NodeId) : Run Json := do
  match (← get).cells[id]? with
  | some (.computed _ (some v)) => return v
  | _ => panicWith "computed value is populated after a refresh"

/-- Records a read of a computed value and brings it up to date for that. -/
def readFresh (κ : Kernel) (id : NodeId) : Run Json := do
  modify (·.modifyTracking (·.record id))
  ensureFresh κ id
  keptValue id

/-- The value of a computed value that has been brought up to date. -/
def readComputed (κ : Kernel) (id : NodeId) : Run Json := holding id (readFresh κ id)

/-- Does the first thing that was put off, and then the others. -/
def drain (κ : Kernel) : Run Unit := do
  let next ← modifyGet fun s =>
    match s.deferred with
    | [] => (none, s)
    | task :: rest => (some task, { s with deferred := rest })
  match next with
  | none => return
  | some (.uncaught error) =>
    surfaceUncaught κ error
    κ.drain
  | some (.fallback b error) =>
    showFallback κ b error
    modify State.sweep
    κ.drain

end Rivulet.Engine
