import Rivulet.Text.Plain

/-!
# Kinds of nodes and trees of them

The closed set of node kinds that markup can hold: elements, texts, the wrappers of reactive
parts, the markers around a fragment, and comments. A tree is a node with the trees of its
children.
-/

namespace Rivulet.Markup

/-- What a wrapper element stands for. -/
inductive Wrapper where
  /-- A region that is drawn by a cursor. -/
  | region
  /-- A list of fragments that is replaced as a whole. -/
  | insert
  deriving DecidableEq, Repr

/-- The tag of a wrapper. -/
def Wrapper.tag : Wrapper → String
  | region => "l-region"
  | insert => "l-insert"

/-- The wrapper with the given tag. -/
def Wrapper.ofTag? (tag : String) : Option Wrapper :=
  if tag = "l-region" then some .region else if tag = "l-insert" then some .insert else none

/-- An end of a fragment. -/
inductive Edge where
  /-- Where the fragment starts. -/
  | opening
  /-- Where the fragment ends. -/
  | closing
  deriving DecidableEq, Repr

/-- Attributes in the order in which they were first set. -/
abbrev Attributes := List (String × String)

namespace Attributes

/-- Sets an attribute; one that is there keeps its place. -/
def put (name value : String) : Attributes → Attributes
  | [] => [(name, value)]
  | (k, v) :: rest => if k = name then (k, value) :: rest else (k, v) :: put name value rest

/-- Removes an attribute. -/
def drop (name : String) (attrs : Attributes) : Attributes := attrs.filter (·.1 ≠ name)

/-- Whether an attribute is set. -/
def has (name : String) (attrs : Attributes) : Bool := attrs.any (·.1 = name)

end Attributes

/-- What a node is, apart from its place in a tree. -/
inductive Kind where
  /-- An element. -/
  | element (tag : String) (attrs : Attributes)
  /-- A text. -/
  | text (content : String)
  /-- The wrapper of a reactive part. -/
  | wrapper (wrapper : Wrapper) (attrs : Attributes)
  /-- An end of a fragment. -/
  | marker (edge : Edge)
  /-- Any other comment. -/
  | comment (content : String)
  deriving DecidableEq, Repr, Inhabited

/-- The attribute of elements that were rendered here. -/
def keyAttribute : String := "data-lk"

namespace Kind

/-- The tag of an element or a wrapper. -/
def tag? : Kind → Option String
  | element tag _ => some tag
  | wrapper w _ => some w.tag
  | _ => none

/-- The attributes of an element or a wrapper. -/
def attrs : Kind → Attributes
  | element _ attrs | wrapper _ attrs => attrs
  | _ => []

/-- The content of a text. -/
def text? : Kind → Option String
  | text content => some content
  | _ => none

/-- Whether the node is a text. -/
def isText : Kind → Bool
  | text _ => true
  | _ => false

/-- Whether the node is an end of a fragment. -/
def isMarker : Kind → Bool
  | marker _ => true
  | _ => false

/-- Changes the attributes of an element or a wrapper. -/
def mapAttrs (f : Attributes → Attributes) : Kind → Kind
  | element tag attrs => element tag (f attrs)
  | wrapper w attrs => wrapper w (f attrs)
  | kind => kind

/-- Changes the content of a text. -/
def setText (content : String) : Kind → Kind
  | text _ => text content
  | kind => kind

/-- Whether the node was put there by someone else: a comment, or an element without the
key attribute. -/
def isForeign : Kind → Bool
  | element _ attrs => !attrs.has keyAttribute
  | comment _ => true
  | text _ | wrapper _ _ | marker _ => false

/-- A short name of the node for messages. -/
def describe : Kind → String
  | element tag _ => "<" ++ tag ++ ">"
  | text content => "text " ++ Text.quoted content
  | wrapper w _ => "<" ++ w.tag ++ ">"
  | marker .opening => "boundary open"
  | marker .closing => "boundary close"
  | comment _ => "comment"

end Kind

/-- A node with its children. -/
inductive Tree where
  /-- A node and the trees of its children, in order. -/
  | node (kind : Kind) (children : List Tree)
  deriving Inhabited

namespace Tree

/-- The node at the top. -/
def kind : Tree → Kind
  | node kind _ => kind

/-- The trees below the top. -/
def children : Tree → List Tree
  | node _ children => children

/-- A tree of a single node. -/
def leaf (kind : Kind) : Tree := node kind []

mutual

/-- The number of nodes. -/
def size : Tree → Nat
  | node _ children => sizes children + 1

/-- The number of nodes in several trees. -/
def sizes : List Tree → Nat
  | [] => 0
  | t :: ts => size t + sizes ts

end

end Tree

end Rivulet.Markup
