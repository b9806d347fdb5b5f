import Rivulet.Markup.Parser
import Rivulet.Document.Fragment

/-!
# Documents

Trees that change. The nodes of a document live in an arena and know their parent and their
children; a node keeps its identity when it moves and when it is taken out of the tree. What
a listener does is left open here.
-/

namespace Rivulet

/-- A node of a document, as its place in the arena. -/
structure DomId where
  /-- The place in the arena; the root has the first one. -/
  index : Nat
  deriving DecidableEq, Repr, Inhabited

/-- How a node is named in answers. -/
def DomId.display (id : DomId) : String := "#" ++ toString id.index

namespace Document

/-- A listener on a node. -/
structure Listener (α : Type) where
  /-- The number given at registration; no number is given twice in a document. -/
  id : Nat
  /-- The event it waits for. -/
  event : String
  /-- What it does. -/
  action : α

/-- A node with its place in the tree. -/
structure Entry (α : Type) where
  /-- What the node is. -/
  kind : Markup.Kind
  /-- The node it is a child of. -/
  parent : Option DomId := none
  /-- Its children, in order. -/
  children : List DomId := []
  /-- The listeners on it, in the order of registration. -/
  listeners : List (Listener α) := []
  deriving Inhabited

/-- The node that every document starts with. -/
def rootEntry {α : Type} : Entry α := { kind := .element "body" [] }

end Document

/-- A document. -/
structure Document (α : Type) where
  /-- All nodes ever created, the root first. -/
  nodes : Array (Document.Entry α) := #[Document.rootEntry]
  /-- How many nodes were created since the count was last reset. -/
  created : Nat := 0
  /-- The number of the next listener. -/
  nextListener : Nat := 0
  deriving Inhabited

namespace Document

variable {α : Type}

/-- The root of every document. -/
def root : DomId := ⟨0⟩

/-- Whether a place lies in the arena. -/
def holds (d : Document α) (id : DomId) : Bool := id.index < d.nodes.size

/-- What is said of a place outside of the arena. -/
def outsideMessage (d : Document α) (id : DomId) : String :=
  "index out of bounds: the len is " ++ toString d.nodes.size ++ " but the index is " ++
    toString id.index

/-- A node of the arena; a place outside of it reads like an empty root. -/
def entry (d : Document α) (id : DomId) : Entry α := d.nodes[id.index]?.getD rootEntry

/-- What a node is. -/
def kind (d : Document α) (id : DomId) : Markup.Kind := (d.entry id).kind

/-- The children of a node. -/
def children (d : Document α) (id : DomId) : List DomId := (d.entry id).children

/-- The parent of a node. -/
def parent? (d : Document α) (id : DomId) : Option DomId := (d.entry id).parent

/-- Changes a node. -/
def modify (d : Document α) (id : DomId) (f : Entry α → Entry α) : Document α :=
  { d with nodes := d.nodes.modify id.index f }

/-- Changes what a node is. -/
def modifyKind (d : Document α) (id : DomId) (f : Markup.Kind → Markup.Kind) : Document α :=
  d.modify id fun e => { e with kind := f e.kind }

/-- Creates a node outside of the tree. -/
def create (d : Document α) (kind : Markup.Kind) : DomId × Document α :=
  (⟨d.nodes.size⟩, { d with nodes := d.nodes.push { kind }, created := d.created + 1 })

/-- Takes a node with all below it out of the tree. -/
def detach (d : Document α) (id : DomId) : Document α :=
  match d.parent? id with
  | none => d
  | some p =>
    let d := d.modify id fun e => { e with parent := none }
    d.modify p fun e => { e with children := e.children.filter (· ≠ id) }

/-- A list with an element put in front of another one, or at its end. -/
def insertIn (c : DomId) (anchor : Option DomId) (cs : List DomId) : List DomId :=
  match anchor with
  | none => cs ++ [c]
  | some a => cs.takeWhile (· ≠ a) ++ c :: cs.dropWhile (· ≠ a)

/-- Moves a node under a parent, in front of the anchor; at the end without an anchor or when
the anchor is no child of the parent. -/
def insertBefore (d : Document α) (parent child : DomId) (anchor : Option DomId) : Document α :=
  let d := d.detach child
  let d := d.modify parent fun e => { e with children := insertIn child anchor e.children }
  d.modify child fun e => { e with parent := some parent }

/-- Moves a node to the end of a parent's children. -/
def append (d : Document α) (parent child : DomId) : Document α := d.insertBefore parent child none

/-- Combines what is known of the nodes below a node, no deeper than the given bound. -/
def foldWithin {β : Type} (d : Document α) (f : DomId → Markup.Kind → List β → β) :
    Nat → DomId → β
  | 0, id => f id (d.kind id) []
  | n + 1, id => f id (d.kind id) ((d.children id).map (d.foldWithin f n))

/-- Combines what is known of the nodes below a node. No path is longer than the arena. -/
def fold {β : Type} (d : Document α) (f : DomId → Markup.Kind → List β → β) (id : DomId) : β :=
  d.foldWithin f d.nodes.size id

/-- The tree below a node; only elements and wrappers have children in it. -/
def tree (d : Document α) (id : DomId) : Markup.Tree :=
  d.fold (fun _ kind children => match kind with
    | .element _ _ | .wrapper _ _ => .node kind children
    | _ => .leaf kind) id

/-- The trees of the children of a node. -/
def forest (d : Document α) (id : DomId) : List Markup.Tree := (d.children id).map d.tree

/-- The nodes of a subtree, each before those below it. -/
def subtree (d : Document α) (id : DomId) : List DomId :=
  d.fold (fun id _ below => id :: below.flatten) id

/-- The nodes below a node, in document order. -/
def below (d : Document α) (id : DomId) : List DomId := (d.children id).flatMap d.subtree

/-- Takes a node out of the tree and drops every listener in its subtree. -/
def remove (d : Document α) (id : DomId) : Document α :=
  let d := d.detach id
  (d.subtree id).foldl (fun d n => d.modify n fun e => { e with listeners := [] }) d

/-- Removes several nodes. -/
def removeAll (d : Document α) (ids : List DomId) : Document α := ids.foldl remove d

/-- Removes every child of a node. -/
def clear (d : Document α) (id : DomId) : Document α := d.removeAll (d.children id)

/-- A node and those that follow it under the same parent. -/
def fromSibling (d : Document α) (id : DomId) : List DomId :=
  match d.parent? id with
  | none => [id]
  | some p => (d.children p).dropWhile (· ≠ id)

/-- The nodes that follow a node under the same parent. -/
def following (d : Document α) (id : DomId) : List DomId := (d.fromSibling id).tail

/-- The node behind a node under the same parent. -/
def nextSibling? (d : Document α) (id : DomId) : Option DomId := (d.following id).head?

/-- The first child of a node. -/
def firstChild? (d : Document α) (id : DomId) : Option DomId := (d.children id).head?

/-- The value of an attribute. -/
def attr? (d : Document α) (id : DomId) (name : String) : Option String :=
  (d.kind id).attrs.lookup name

/-- Sets an attribute of an element or a wrapper. -/
def setAttr (d : Document α) (id : DomId) (name value : String) : Document α :=
  d.modifyKind id (·.mapAttrs (·.put name value))

/-- Sets several attributes, one after the other. -/
def setAttrs (d : Document α) (id : DomId) (attrs : List (String × String)) : Document α :=
  attrs.foldl (fun d (name, value) => d.setAttr id name value) d

/-- Removes an attribute. -/
def removeAttr (d : Document α) (id : DomId) (name : String) : Document α :=
  d.modifyKind id (·.mapAttrs (·.drop name))

/-- Replaces the content of a text. -/
def setText (d : Document α) (id : DomId) (content : String) : Document α :=
  d.modifyKind id (·.setText content)

/-- The texts below a node, one after the other. -/
def textContent (d : Document α) (id : DomId) : String :=
  d.fold (fun _ kind below => kind.text?.getD (String.join below)) id

/-- The nodes below a node with the given tag, in document order. -/
def findAll (d : Document α) (id : DomId) (tag : String) : List DomId :=
  (d.below id).filter fun n => (d.kind n).tag? = some tag

mutual

/-- Builds a tree outside of the document's own. -/
def plant (d : Document α) : Markup.Tree → DomId × Document α
  | .node kind children =>
    let (id, d) := d.create kind
    (id, d.plantUnder id children)

/-- Builds trees as the last children of a node. -/
def plantUnder (d : Document α) (parent : DomId) : List Markup.Tree → Document α
  | [] => d
  | t :: ts =>
    let (child, d) := d.plant t
    (d.append parent child).plantUnder parent ts

end

/-- Builds a fragment outside of the tree. -/
def build (d : Document α) (f : Fragment) : DomId × Document α := d.plant f.tree

/-- Replaces the children of a node by what markup holds. Faulty markup is used up to its
fault. -/
def setInner (d : Document α) (id : DomId) (markup : String) :
    Document α × Option Markup.ParseError :=
  let (trees, fault) := Markup.parsePartial markup
  ((d.clear id).plantUnder id trees, fault)

/-- The document that markup describes; no node of it counts as created. -/
def parse (markup : String) : Except Markup.ParseError (Document α) :=
  (Markup.parse markup).map fun trees =>
    { ({} : Document α).plantUnder root trees with created := 0 }

/-- The markup of the children of a node. -/
def inner (d : Document α) (id : DomId) : String :=
  String.ofList (Markup.printChildren (d.kind id).tag? (d.forest id))

/-- The markup of a node. -/
def outer (d : Document α) (id : DomId) : String := String.ofList (d.tree id).print

/-- The document in one line, for people. -/
def summary (d : Document α) : String :=
  "Document \x7b nodes: " ++ toString d.nodes.size ++ ", html: " ++ Text.quoted (d.inner root) ++
    " \x7d"

/-- Adds a listener to a node. -/
def listen (d : Document α) (id : DomId) (event : String) (action : α) : Nat × Document α :=
  let number := d.nextListener
  let d := { d with nextListener := number + 1 }
  (number, d.modify id fun e => { e with listeners := e.listeners ++ [⟨number, event, action⟩] })

/-- Removes a listener from a node. -/
def unlisten (d : Document α) (id : DomId) (listener : Nat) : Document α :=
  d.modify id fun e => { e with listeners := e.listeners.filter (·.id ≠ listener) }

/-- How many listeners a node has. -/
def listenerCount (d : Document α) (id : DomId) : Nat := (d.entry id).listeners.length

/-- What the listeners of a node do on an event, in the order of registration. -/
def listenersFor (d : Document α) (id : DomId) (event : String) : List α :=
  ((d.entry id).listeners.filter (·.event = event)).map (·.action)

end Document

end Rivulet
