import Rivulet.Engine.Effects

/-!
# Drawing

A template draws with a cursor. Its steps are those of a walk over the document of the
cursor; the account and the mark of the walk may be shared with other cursors at work. A
boundary draws between two markers: what does not hydrate there is drawn anew, and when an
error is raised there the fallback takes the place of the content.
-/

namespace Rivulet.Engine

open Hydration

/-- A new account. -/
def newReport : Run ReportId :=
  modifyGet fun s => (⟨s.reports.size⟩, { s with reports := s.reports.push {} })

/-- A new mark. -/
def newFlag : Run FlagId :=
  modifyGet fun s => (⟨s.flags.size⟩, { s with flags := s.flags.push false })

/-- A new document. -/
def newDocument (d : Document (Json → Program)) : Run DocumentId :=
  modifyGet fun s => (⟨s.documents.size⟩, { s with documents := s.documents.push d })

/-- Makes a step of the innermost walk. -/
def walking {α : Type} (step : WalkM (Json → Program) α) : Run α := do
  let s ← get
  match s.drawings with
  | [] => panicWith Misuse.finished.message
  | d :: rest =>
    let w : Walk (Json → Program) :=
      { document := s.document d.document
        report := s.report d.report
        unresolved := s.flag d.flag
        cursor := d.cursor }
    match step.run w with
    | .error misuse => panicWith misuse.message
    | .ok (a, w) =>
      set { s with
        documents := s.documents.setIfInBounds d.document.index w.document
        reports := s.reports.setIfInBounds d.report.index w.report
        flags := s.flags.setIfInBounds d.flag.index w.unresolved
        drawings := { d with cursor := w.cursor } :: rest }
      return a

/-- Draws with a new cursor and closes what is still open at the end. -/
def drawing {α : Type} (d : Drawing) (body : Run α) : Run α := do
  modify fun s => { s with drawings := d :: s.drawings }
  guarding (fun s => { s with drawings := s.drawings.tail }) do
    let a ← body
    walking (modify Walk.finish)
    return a

/-- A cursor over the children of a node, with an account and a mark of its own. -/
def newDrawing (document : DocumentId) (parent : DomId) (mode : Mode) : Run Drawing := do
  let report ← newReport
  let flag ← newFlag
  let frame := Frame.open ((← get).document document) parent mode
  return { document, report, flag, cursor := ⟨[frame], none⟩ }

/-- The cursor at work. -/
def currentDrawing : Run Drawing := do
  match (← get).drawings with
  | [] => panicWith Misuse.finished.message
  | d :: _ => return d

/-- Lets a name stand for a node of the document that is drawn. -/
def bindNode (name : Option String) (node : DomId) : Run Unit := do
  let d ← currentDrawing
  modify (·.bindName name (.node d.document node))

/-- Claims a node and lets a name stand for it. -/
def claimAs (name : Option String) (step : WalkM (Json → Program) DomId) : Run DomId := do
  let id ← walking step
  bindNode name id
  return id

/-- Puts a text that follows a program. -/
def dynText (κ : Kernel) (name : Option String) (p : Program) : Run Unit := do
  let id ← walking (Walk.claimNode (.text "") [] false)
  createHiddenEffect κ (.text (← currentDrawing).document id p) none
  bindNode name id

/-- Breaks down if a node is none of a document; it may come from another one. -/
def ensureNode (document : DocumentId) (node : DomId) : Run Unit := do
  let d := (← get).document document
  unless d.holds node do panicWith (d.outsideMessage node)

/-- Has an attribute follow a program. -/
def bindAttr (κ : Kernel) (node : DomId) (name : String) (p : Program) : Run Unit := do
  createHiddenEffect κ (.attr (← currentDrawing).document node name p) none

/-- Puts a region that a program draws. -/
def region (κ : Kernel) (name : Option String) (p : Program) : Run Unit := do
  let wrapper ← walking (Walk.claimNode (.wrapper .region) [] false)
  let mode ← walking Walk.childMode
  let d ← currentDrawing
  createHiddenEffect κ (.region d.document wrapper p (some ⟨mode, d.report, d.flag⟩))
    (← get).supply?
  bindNode name wrapper

/-- Puts an insert with the fragments that a program gives. -/
def insert (κ : Kernel) (name : Option String) (p : Program) : Run Unit := do
  let wrapper ← walking (Walk.claimNode (.wrapper .insert) [] false)
  walking (Walk.emptyWrapper wrapper)
  let d ← currentDrawing
  createHiddenEffect κ (.insert d.document wrapper p (some d.report)) none
  bindNode name wrapper

/-- Listens to an event until the current scope ends; `false` when there is none. -/
def listen (node : DomId) (event : String) (action : Json → Program) : Run Bool := do
  let document := (← currentDrawing).document
  ensureNode document node
  modifyGet fun s =>
    let (listener, d) := (s.document document).listen node event action
    match s.scopes.addCleanup? (.unlisten document node listener) with
    | none => (false, s)
    | some scopes => (true, { s.modifyDocument document (fun _ => d) with scopes })

/-- Opens a scope for what a boundary shows. -/
def openBoundaryScope (id : BoundaryId) (b : Boundary) (catching : Bool) : Run ScopeId := do
  let scope ← createScope b.owner
  if catching && b.fallback.isSome then
    modify (·.modifyScopes (·.setHandler scope (.boundary id)))
  modify (·.modifyBoundary id ({ · with scope := some scope }))
  return scope

/-- Draws between the ends of a boundary. -/
def drawBoundary (κ : Kernel) (b : Boundary) (scope : ScopeId) (mode : Mode) (flag : FlagId)
    (p : Program) : Run Unit :=
  withScope scope <| withSupply b.supply do
    let document := (← get).document b.document
    let next := match mode with
      | .hydrate => document.nextSibling? b.opening
      | .create => none
    let frame : Frame := { parent := b.parent, next, stop := some b.closing, mode }
    drawing ⟨b.document, b.report, flag, ⟨[frame], none⟩⟩ (κ.perform p)

/-- Removes what is between the ends of a boundary and counts it. -/
def clearBoundary (b : Boundary) : Run Nat :=
  modifyGet fun s =>
    let inside := between (s.document b.document) b.opening b.closing
    (inside.length, s.modifyDocument b.document (·.removeAll inside))

/-- Runs something while the query data of a boundary is in use. -/
def holdingBoundary (id : BoundaryId) (body : Run Unit) : Run Unit := do
  match (← get).boundaryClient? id with
  | some client => holdingClient client body
  | none => body

/-- Has a boundary show its fallback, unless it does so already or is gone. -/
def showFallback (κ : Kernel) (id : BoundaryId) (error : String) : Run Unit :=
  holdingBoundary id do
    let s ← get
    match s.boundary? id with
    | none => return
    | some b =>
      match b.fallback, b.scope with
      | some fallback, some current =>
        if b.showing || s.scopes.isDisposed current then return
        modify (·.modifyBoundary id ({ · with showing := true }))
        κ.dispose current
        let _ ← clearBoundary b
        let scope ← openBoundaryScope id b false
        drawBoundary κ b scope .create (← newFlag) (fallback (.str error))
      | _, _ => return

/-- Draws the content of a boundary for the first time. Errors that are raised meanwhile are
collected; the first of them brings the fallback on. -/
def mountBoundary (κ : Kernel) (id : BoundaryId) (b : Boundary) (mode : Mode) : Run Unit := do
  let scope ← openBoundaryScope id b true
  let flag ← newFlag
  drawBoundary κ b scope mode flag b.content
  if mode = .hydrate ∧ (← get).flag flag then
    κ.dispose scope
    modify (·.modifyBoundary id ({ · with errors := [] }))
    let removed ← clearBoundary b
    modify (·.modifyReport b.report fun r => r.addFallback.addDiscarded removed)
    let scope ← openBoundaryScope id b true
    drawBoundary κ b scope .create (← newFlag) b.content
  let errors ← modifyGet fun s =>
    (((s.boundary? id).map (·.errors)).getD [],
      s.modifyBoundary id ({ · with armed := true, errors := [] }))
  match errors with
  | [] => return
  | error :: _ => showFallback κ id error

/-- Puts a boundary. -/
def boundary (κ : Kernel) (content : Program) (fallback : Option (Json → Program)) :
    Run Unit := do
  let markers ← walking Walk.claimMarkers
  let frame ← walking Walk.frame
  let d ← currentDrawing
  let b : Boundary ← modifyGet fun s =>
    ({ document := d.document
       report := d.report
       parent := frame.parent
       opening := markers.opening
       closing := markers.closing
       owner := s.scopes.current?
       supply := s.supply?
       content, fallback }, s)
  let id ← modifyGet fun s =>
    ((⟨s.boundaries.size⟩ : BoundaryId), { s with boundaries := s.boundaries.push b })
  mountBoundary κ id b markers.mode
  walking (modify (·.setLast markers.closing (markers.mode = .create)))

end Rivulet.Engine
