import Rivulet.Document.Basic
import Rivulet.Hydration.Report

/-!
# The hydration cursor

A template names the nodes it wants in document order, and a cursor provides them. When
creating, each is made; when hydrating, the next fitting node of the document is claimed and
only made when the markup does not fit. Disagreements are repaired as locally as possible:
an unexpected node gives way to a fitting one behind it or to a new one. What cannot be
repaired in place, wrappers and markers and nodes nobody asked for, leaves the walk
unresolved.
-/

namespace Rivulet.Hydration

/-- What a template asks for. -/
inductive Expected where
  /-- An element of a tag. -/
  | element (tag : String)
  /-- A text with its content. -/
  | text (content : String)
  /-- A wrapper. -/
  | wrapper (w : Markup.Wrapper)
  deriving DecidableEq, Repr

namespace Expected

/-- A short name of what is asked for. -/
def describe : Expected → String
  | element tag => "<" ++ tag ++ ">"
  | text content => "text " ++ Text.quoted content
  | wrapper w => "<" ++ w.tag ++ ">"

/-- Whether a node will do; tags are compared without regard to case. -/
def accepts : Expected → Markup.Kind → Bool
  | element want, .element tag _ => Text.lowerAscii tag.toList == Text.lowerAscii want.toList
  | text _, .text _ => true
  | wrapper want, .wrapper w _ => w = want
  | _, _ => false

/-- Whether a text is asked for. -/
def isText : Expected → Bool
  | text _ => true
  | _ => false

/-- Whether a wrapper is asked for. -/
def isWrapper : Expected → Bool
  | wrapper _ => true
  | _ => false

/-- The node that is created when none can be claimed. -/
def kind (attrs : List (String × String)) : Expected → Markup.Kind
  | element tag => Fragment.elementKind tag attrs
  | text content => .text content
  | wrapper w => .wrapper w (attrs.foldl (fun acc (k, v) => acc.put k v) [])

end Expected

/-- What a cursor does with nodes it is asked for. -/
inductive Mode where
  /-- It makes each of them. -/
  | create
  /-- It claims those that are there. -/
  | hydrate
  deriving DecidableEq, Repr

/-- The name of a mode. -/
def Mode.name : Mode → String
  | create => "Create"
  | hydrate => "Hydrate"

/-- A level of the walk: the children of one node. -/
structure Frame where
  /-- The node whose children are walked. -/
  parent : DomId
  /-- The next child to claim. -/
  next : Option DomId
  /-- The child that the walk stops at. -/
  stop : Option DomId := none
  /-- What is done with nodes on this level. -/
  mode : Mode
  deriving DecidableEq, Repr

/-- Where new nodes go: in front of this child, or at the end. -/
def Frame.anchor (f : Frame) : Option DomId := f.next.or f.stop

/-- The place of a walk. -/
structure Cursor where
  /-- The open levels, innermost first. -/
  frames : List Frame
  /-- The node that was claimed last on this level, and whether it was created. -/
  last : Option (DomId × Bool) := none
  deriving DecidableEq, Repr, Inhabited

/-- What a template can do wrong with a cursor. -/
inductive Misuse where
  /-- Stepping into the children of nothing. -/
  | nothingClaimed
  /-- Stepping out of a level that was not stepped into. -/
  | notEntered
  /-- Going on after the end. -/
  | finished
  deriving DecidableEq, Repr

/-- What a misuse says. -/
def Misuse.message : Misuse → String
  | nothingClaimed => "enter_children called before any node was claimed"
  | notEntered => "exit_children called without a matching enter_children"
  | finished => "cursor used after its walk finished"

/-- A walk over a document, with its account. -/
structure Walk (α : Type) where
  /-- The document that is walked over. -/
  document : Document α
  /-- What was done so far. -/
  report : Report := {}
  /-- Whether something could not be repaired. -/
  unresolved : Bool := false
  /-- The place of the walk. -/
  cursor : Cursor

/-- The level made of all children of a node. -/
def Frame.open {α : Type} (d : Document α) (parent : DomId) (mode : Mode) : Frame where
  parent
  next := match mode with
    | .hydrate => d.firstChild? parent
    | .create => none
  mode

/-- A step of a walk, which a misuse ends. -/
abbrev WalkM (α : Type) := StateT (Walk α) (Except Misuse)

namespace Walk

variable {α : Type}

/-- A walk that starts with the children of a node. -/
def start (d : Document α) (parent : DomId) (mode : Mode) : Walk α :=
  { document := d, cursor := ⟨[Frame.open d parent mode], none⟩ }

/-- The innermost level. -/
def frame? (w : Walk α) : Option Frame := w.cursor.frames.head?

/-- Changes the innermost level. -/
def modifyFrame (w : Walk α) (f : Frame → Frame) : Walk α :=
  match w.cursor.frames with
  | [] => w
  | frame :: rest => { w with cursor := { w.cursor with frames := f frame :: rest } }

/-- Changes the account. -/
def modifyReport (w : Walk α) (f : Report → Report) : Walk α := { w with report := f w.report }

/-- Changes the document. -/
def modifyDocument (w : Walk α) (f : Document α → Document α) : Walk α :=
  { w with document := f w.document }

/-- Remembers the node that was claimed last. -/
def setLast (w : Walk α) (id : DomId) (created : Bool) : Walk α :=
  { w with cursor := { w.cursor with last := some (id, created) } }

/-- Leaves the walk unresolved. -/
def escalate (w : Walk α) : Walk α := { w with unresolved := true }

/-- Goes on behind a node. -/
def advancePast (w : Walk α) (id : DomId) : Walk α :=
  w.modifyFrame fun f => { f with next := w.document.nextSibling? id }

end Walk

/-- Whether a node can be claimed at all. Texts are passed over unless a text is asked for,
as nothing else could ever claim them. -/
def isCandidate (wantsText : Bool) (kind : Markup.Kind) : Bool :=
  !kind.isForeign && (wantsText || !kind.isText)

/-- What a look ahead has found. -/
structure Lookout where
  /-- How many nodes were passed over. -/
  skipped : Nat
  /-- Where the walk stands then. -/
  next : Option DomId
  /-- The node that can be claimed there. -/
  found : Option DomId

/-- Looks for a node that can be claimed, no further than to the stop. -/
def lookAhead (kindOf : DomId → Markup.Kind) (stop : Option DomId) (wantsText : Bool) :
    List DomId → Lookout
  | [] => ⟨0, none, none⟩
  | id :: rest =>
    if stop = some id then ⟨0, some id, none⟩
    else if isCandidate wantsText (kindOf id) then ⟨0, some id, some id⟩
    else
      let ahead := lookAhead kindOf stop wantsText rest
      { ahead with skipped := ahead.skipped + 1 }

/-- The marker that closes a fragment, given how many fragments are open inside it. -/
def closeAmong (kindOf : DomId → Markup.Kind) : Nat → List DomId → Option DomId
  | _, [] => none
  | depth, id :: rest =>
    match kindOf id, depth with
    | .marker .opening, depth => closeAmong kindOf (depth + 1) rest
    | .marker .closing, 0 => some id
    | .marker .closing, depth + 1 => closeAmong kindOf depth rest
    | _, depth => closeAmong kindOf depth rest

/-- The marker that closes the fragment which a marker opens. -/
def matchingClose {α : Type} (d : Document α) (opening : DomId) : Option DomId :=
  closeAmong d.kind 0 (d.following opening)

namespace Walk

variable {α : Type}

/-- The innermost level of a walk that is not over. -/
def frame : WalkM α Frame := do
  match (← get).frame? with
  | some f => return f
  | none => throw .finished

/-- What is done with nodes at this place. -/
def mode : WalkM α Mode := return (← frame).mode

/-- The nodes of a level that are still ahead. -/
def ahead (w : Walk α) (f : Frame) : List DomId :=
  match f.next with
  | none => []
  | some id => w.document.fromSibling id

/-- The next node that can be claimed; nodes in front of it are passed over. -/
def candidate (wantsText : Bool) : WalkM α (Option DomId) := do
  let w ← get
  match w.frame? with
  | none => return none
  | some f =>
    let seen := lookAhead w.document.kind f.stop wantsText (w.ahead f)
    set ((w.modifyFrame fun f => { f with next := seen.next }).modifyReport
      (·.addSkipped seen.skipped))
    return seen.found

/-- Creates a node where the walk stands. -/
def createHere (expected : Expected) (attrs : List (String × String)) : WalkM α DomId := do
  let f ← frame
  let w ← get
  let (id, d) := w.document.create (expected.kind attrs)
  let d := d.insertBefore f.parent id f.anchor
  set (({ w with document := d }.modifyReport (·.addCreated 1)).setLast id true)
  return id

/-- Claims a node, bringing its attributes, and its content if asked to, into line. -/
def adopt (id : DomId) (expected : Expected) (attrs : List (String × String)) (patch : Bool) :
    WalkM α DomId := do
  modify fun w =>
    let w := w.modifyDocument fun d =>
      let d := d.setAttrs id attrs
      match expected, patch with
      | .text content, true => d.setText id content
      | _, _ => d
    ((w.advancePast id).modifyReport (·.addClaimed 1)).setLast id false
  return id

/-- A later node on the level that will do. Nobody looks for texts, and nobody looks beyond
the stop or a marker. -/
def laterMatch (w : Walk α) (f : Frame) (expected : Expected) (found : DomId) : Option DomId :=
  if expected.isText || (w.document.kind found).isMarker then none
  else
    let near := (w.document.following found).takeWhile fun id =>
      f.stop ≠ some id && !(w.document.kind id).isMarker
    near.find? fun id =>
      !(w.document.kind id).isForeign && expected.accepts (w.document.kind id)

/-- Gets rid of an unexpected node in front of the one that will be claimed; nodes of others
and texts stay. -/
def discard (expected : Expected) (w : Walk α) (id : DomId) : Walk α :=
  let kind := w.document.kind id
  if isCandidate false kind then
    (w.modifyDocument (·.remove id)).modifyReport fun r =>
      (r.addDiscarded 1).record expected.describe (some kind.describe) .discarded
  else w.modifyReport (·.addSkipped 1)

/-- Gets rid of the unexpected nodes from one up to the one that will be claimed. -/
def discardUpTo (w : Walk α) (first matched : DomId) (expected : Expected) : Walk α :=
  ((w.document.fromSibling first).takeWhile (· ≠ matched)).foldl (discard expected) w

/-- Whether a disagreement cannot be repaired in place. -/
def isStructural (expected : Expected) (found : Markup.Kind) : Bool :=
  expected.isWrapper ||
    match found with
    | .wrapper _ _ | .marker _ => true
    | _ => false

/-- Creates a node in place of the one that was found. -/
def replace (found : DomId) (expected : Expected) (attrs : List (String × String)) :
    WalkM α DomId := do
  let kind := (← get).document.kind found
  let id ← createHere expected attrs
  let structural := isStructural expected kind
  modify fun w =>
    let w := (w.modifyDocument (·.remove found)).advancePast id
    let w := if structural then w.escalate else w
    w.modifyReport fun r => (r.addDiscarded 1).record expected.describe (some kind.describe)
      (if structural then .escalated else .replaced)
  return id

/-- Provides the node that is asked for. -/
def claimNode (expected : Expected) (attrs : List (String × String)) (patch : Bool) :
    WalkM α DomId := do
  match ← mode with
  | .create => createHere expected attrs
  | .hydrate =>
    match ← candidate expected.isText with
    | none =>
      let id ← createHere expected attrs
      modify (·.modifyReport (·.record expected.describe none .inserted))
      return id
    | some found =>
      if expected.accepts ((← get).document.kind found) then adopt found expected attrs patch
      else
        match (← get).laterMatch (← frame) expected found with
        | some matched =>
          modify (·.discardUpTo found matched expected)
          adopt matched expected attrs patch
        | none => replace found expected attrs

/-- Provides a node with the given attributes and, for a text, the given content. -/
def claim (expected : Expected) (attrs : List (String × String)) : WalkM α DomId :=
  claimNode expected attrs true

/-- Provides a text, whatever the content of the one that is there. -/
def staticText (content : String) : WalkM α DomId := claimNode (.text content) [] false

/-- Steps into the children of the node that was claimed last. -/
def enterChildren : WalkM α Unit := do
  match (← get).cursor.last with
  | none => throw .nothingClaimed
  | some (parent, created) =>
    let mode ← if created then pure Mode.create else mode
    modify fun w =>
      { w with cursor := ⟨Frame.open w.document parent mode :: w.cursor.frames, none⟩ }

/-- Records the nodes of a level that nobody asked for; they stay where they are and leave
the walk unresolved. -/
def settleFrame (w : Walk α) (f : Frame) : Walk α :=
  match f.mode with
  | .create => w
  | .hydrate =>
    let rest := (w.ahead f).takeWhile (f.stop ≠ some ·)
    let leftover := rest.filter fun id => isCandidate false (w.document.kind id)
    let w := if leftover.isEmpty then w else w.escalate
    w.modifyReport fun r => leftover.foldl
      (fun r id => r.record "end of children" (some (w.document.kind id).describe) .escalated)
      (r.addSkipped (rest.length - leftover.length))

/-- Closes the innermost level. -/
def closeFrame (w : Walk α) : Walk α :=
  match w.cursor.frames with
  | [] => w
  | f :: rest =>
    { w.settleFrame f with cursor := ⟨rest, some (f.parent, f.mode = .create)⟩ }

/-- Steps back out of the children of a node. -/
def exitChildren : WalkM α Unit := do
  if (← get).cursor.frames.length ≤ 1 then throw .notEntered
  modify closeFrame

/-- Closes a number of levels. -/
def closeFrames (w : Walk α) : Nat → Walk α
  | 0 => w
  | n + 1 => w.closeFrame.closeFrames n

/-- Closes every open level. -/
def finish (w : Walk α) : Walk α := w.closeFrames w.cursor.frames.length

/-- What a fragment asks for. -/
def expectedOf : Fragment → Expected
  | .element tag _ _ => .element tag
  | .text content => .text content

/-- Provides a fragment. A node of the same kind and tag is claimed without a look inside;
anything else is replaced. -/
def append (fragment : Fragment) : WalkM α DomId := do
  let expected := expectedOf fragment
  let found ← match ← mode with
    | .hydrate => candidate expected.isText
    | .create => pure none
  let fits := (← get).document.kind
  match found.filter fun id => expected.accepts (fits id) with
  | some id =>
    modify fun w => ((w.advancePast id).modifyReport (·.addClaimed 1)).setLast id false
    return id
  | none =>
    let f ← frame
    let w ← get
    let (id, d) := w.document.build fragment
    let d := d.insertBefore f.parent id f.anchor
    set (({ w with document := d }.modifyReport (·.addCreated fragment.size)).setLast id true)
    match found with
    | none => return id
    | some found =>
      modify fun w =>
        let kind := w.document.kind found
        ((w.modifyDocument (·.remove found)).advancePast id).modifyReport fun r =>
          (r.addDiscarded 1).record expected.describe (some kind.describe) .replaced
      return id

/-- What is done with the children of the node that was claimed last. -/
def childMode : WalkM α Mode := do
  match (← get).cursor.last with
  | some (_, true) => return .create
  | _ => mode

/-- Drops what is inside the wrapper that was just claimed. -/
def emptyWrapper (wrapper : DomId) : WalkM α Unit := do
  if (← childMode) = .hydrate then
    modify fun w =>
      let count := (w.document.children wrapper).length
      (w.modifyDocument (·.clear wrapper)).modifyReport (·.addDiscarded count)

/-- The ends of a fragment, and what is done with the nodes between them. -/
structure Markers where
  /-- Where the fragment starts. -/
  opening : DomId
  /-- Where the fragment ends. -/
  closing : DomId
  /-- What is done between them. -/
  mode : Mode
  deriving DecidableEq, Repr

/-- Creates the ends of a fragment where the walk stands. -/
def createMarkers : WalkM α Markers := do
  let f ← frame
  let w ← get
  let (opening, d) := w.document.create (.marker .opening)
  let (closing, d) := d.create (.marker .closing)
  let d := (d.insertBefore f.parent opening f.anchor).insertBefore f.parent closing f.anchor
  set ({ w with document := d }.modifyReport (·.addCreated 2))
  return ⟨opening, closing, .create⟩

/-- The fragment that a marker opens. -/
def markersAt (d : Document α) (found : DomId) : Option Markers :=
  match d.kind found with
  | .marker .opening => (matchingClose d found).map fun closing => ⟨found, closing, .hydrate⟩
  | _ => none

/-- Provides the ends of a fragment. -/
def claimMarkers : WalkM α Markers := do
  match ← mode with
  | .create => createMarkers
  | .hydrate =>
    match ← candidate false with
    | none =>
      modify (·.modifyReport (·.record "boundary open" none .inserted))
      createMarkers
    | some found =>
      match markersAt (← get).document found with
      | some markers =>
        modify fun w => (w.advancePast markers.closing).modifyReport (·.addClaimed 2)
        return markers
      | none =>
        modify fun w =>
          let kind := w.document.kind found
          w.escalate.modifyReport (·.record "boundary open" (some kind.describe) .escalated)
        createMarkers

end Walk

/-- The nodes between two markers. -/
def between {α : Type} (d : Document α) (opening closing : DomId) : List DomId :=
  (d.following opening).takeWhile (· ≠ closing)

/-- Whether markup that was rendered here is below a node. -/
def hasRendered {α : Type} (d : Document α) (target : DomId) : Bool :=
  (d.children target).any fun id => isCandidate false (d.kind id)

end Rivulet.Hydration
