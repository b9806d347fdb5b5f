import Rivulet.Engine.Inspection
import Rivulet.Engine.Queries

/-!
# Mounting an application

An application is drawn below a node. The markup that is there is claimed or thrown away;
what cannot be claimed is drawn anew as a whole. Queries without a value from the server wait
until they are resolved.
-/

namespace Rivulet.Engine

open Hydration

/-- New query data with what the server has sent. -/
def newClient (payload : Query.Payload) : Run ClientId :=
  modifyGet fun s =>
    let id : ClientId := ⟨s.nextClient⟩
    (id, { s with nextClient := s.nextClient + 1, clients := s.clients.insert id { payload } })

/-- Forgets the fetches that were put off. -/
def clearPending (client : ClientId) : Run Unit := do
  ensureUnlocked (.client client) lockedForChange
  modify fun s =>
    let waiting := ((s.clients[client]?).map (·.waiting)).getD []
    waiting.foldl State.dropNode (s.modifyClient client ({ · with pending := [] }))

/-- Removes what is below a node and counts it. -/
def clearBelow (document : DocumentId) (node : DomId) : Run Nat :=
  modifyGet fun s =>
    let d := s.document document
    ((d.children node).length, s.modifyDocument document (·.clear node))

/-- Draws an application in a new scope. -/
def drawApp (κ : Kernel) (app : Program) (document : DocumentId) (target : DomId) (mode : Mode) :
    Run (ScopeId × Drawing) := do
  let scope ← createScope none
  let d ← newDrawing document target mode
  withScope scope (drawing d (κ.perform app))
  return (scope, d)

/-- What a walk comes to. -/
structure Claiming where
  /-- The scope of the application. -/
  scope : ScopeId
  /-- The account. -/
  report : ReportId
  /-- The state that was reached. -/
  phase : Phase

/-- Draws an application over the markup that is there, or anew if that fails. -/
def claimApp (κ : Kernel) (app : Program) (document : DocumentId) (target : DomId)
    (client : ClientId) : Run Claiming := do
  let (scope, d) ← drawApp κ app document target .hydrate
  let s ← get
  if s.flag d.flag then
    κ.dispose scope
    clearPending client
    let removed ← clearBelow document target
    let (scope, anew) ← drawApp κ app document target .create
    modify fun s => s.modifyReport d.report fun r =>
      (r.addDiscarded removed).addCreated (s.report anew.report).created
    return { scope, report := d.report, phase := .aborted }
  else
    let phase := if (s.report d.report).agrees then Phase.claimed else .partiallyClaimed
    return { scope, report := d.report, phase }

/-- Draws an application in place of the markup that is there. -/
def replaceApp (κ : Kernel) (app : Program) (document : DocumentId) (target : DomId) :
    Run (ScopeId × ReportId) := do
  let removed ← clearBelow document target
  let (scope, d) ← drawApp κ app document target .create
  modify (·.modifyReport d.report (·.addDiscarded removed))
  return (scope, d.report)

/-- The mode of a mount for which none is given: markup that was rendered here is claimed. -/
def automaticMode (s : State) (document : DocumentId) (target : DomId) : MountMode :=
  if hasRendered (s.document document) target then .tolerant else .replace

/-- Mounts an application, lets a name stand for it, and shows it. Its query data is in use
until it was shown, even if there is no name. -/
def mount (κ : Kernel) (name : Option String) (document : DocumentId) (target : DomId)
    (mode : Option MountMode) (payload : Query.Payload) (app : Program) : Run Json := do
  let mode := mode.getD (automaticMode (← get) document target)
  let client ← newClient payload
  holdingClient client do
    let m : Mount ← withSupply (some (.client client)) do
      match mode with
      | .tolerant =>
        let c ← claimApp κ app document target client
        pure { document, target, scope := c.scope, client, report := c.report,
               phases := [.idle, .claiming, c.phase, .interactive] }
      | .replace =>
        let (scope, report) ← replaceApp κ app document target
        pure { document, target, scope, client, report, phases := [.idle, .interactive] }
    modify (·.bindName name (.mount m))
    return (← get).mountValue m

/-- Takes an application down and empties the node it was mounted below. -/
def unmount (κ : Kernel) (name : String) (m : Mount) : Run Unit :=
  holdingClient m.client do
    modify (·.unbind name)
    κ.dispose m.scope
    clearPending m.client
    let _ ← clearBelow m.document m.target

end Rivulet.Engine
