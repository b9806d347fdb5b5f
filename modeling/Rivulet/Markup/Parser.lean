import Rivulet.Markup.Token

/-!
# Trees from markup

Tokens become trees with the help of a stack of open elements. A closing tag closes the
innermost open element of its name with all that is open inside; one without such an element
is ignored, and what is open at the end is closed there.
-/

namespace Rivulet.Markup

/-- An element whose end has not been seen. -/
structure Open where
  /-- The name that closes it. -/
  tag : String
  /-- The element. -/
  kind : Kind
  /-- The children so far, last one first. -/
  children : List Tree

/-- Trees under construction. -/
structure Builder where
  /-- The open elements, innermost first. -/
  opened : List Open := []
  /-- The finished trees outside of them, last one first. -/
  trees : List Tree := []
  /-- Whether a run of text continues the text in front of it. -/
  joins : Bool := false

namespace Builder

/-- Changes the children of the innermost open element. -/
def mapInner (b : Builder) (f : List Tree → List Tree) : Builder :=
  match b.opened with
  | [] => { b with trees := f b.trees }
  | o :: rest => { b with opened := { o with children := f o.children } :: rest }

/-- Adds a tree at the end of the innermost open element. -/
def add (b : Builder) (t : Tree) : Builder := { b.mapInner (t :: ·) with joins := false }

/-- Joins a run of text to the text at the front of a list, or puts it there. -/
def joinText (content : String) : List Tree → List Tree
  | .node (.text before) children :: rest => .node (.text (before ++ content)) children :: rest
  | trees => .leaf (.text content) :: trees

/-- Adds a run of text, which may continue the text in front of it. -/
def addText (b : Builder) (content : String) : Builder :=
  let b := if b.joins then b.mapInner (joinText content) else b.add (.leaf (.text content))
  { b with joins := true }

/-- Puts the plain content of an element inside the element that was added last. -/
def addRaw (b : Builder) (content : List Char) : Builder :=
  if content.isEmpty then b
  else b.mapInner fun
    | .node kind children :: rest =>
      .node kind (children ++ [.leaf (.text (String.ofList content))]) :: rest
    | [] => []

/-- Adds a comment, which may stand for an empty text or an end of a fragment. An empty one
only keeps texts apart. -/
def addComment (b : Builder) (content : String) : Builder :=
  if content = "" then { b with joins := false }
  else if content = emptyTextMark then b.add (.leaf (.text ""))
  else if content = Edge.opening.mark then b.add (.leaf (.marker .opening))
  else if content = Edge.closing.mark then b.add (.leaf (.marker .closing))
  else b.add (.leaf (.comment content))

/-- The node that a tag opens. -/
def kindOf (tag : String) (attrs : Attributes) : Kind :=
  match Wrapper.ofTag? tag with
  | some w => .wrapper w attrs
  | none => .element tag attrs

/-- Closes the innermost open element. -/
def closeInner (b : Builder) : Builder :=
  match b.opened with
  | [] => b
  | o :: rest =>
    let b : Builder := { b with opened := rest }
    b.mapInner (.node o.kind o.children.reverse :: ·)

/-- Closes the given number of open elements. -/
def closeMany (b : Builder) : Nat → Builder
  | 0 => b
  | n + 1 => b.closeInner.closeMany n

/-- Takes in a token. -/
def push (b : Builder) : Token → Builder
  | .text content => b.addText (String.ofList content)
  | .comment content => b.addComment (String.ofList content)
  | .opening tag attrs alone =>
    if alone then b.add (.leaf (kindOf tag attrs))
    else { b with opened := ⟨tag, kindOf tag attrs, []⟩ :: b.opened, joins := false }
  | .raw content => b.addRaw content
  | .closing tag =>
    match b.opened.findIdx? (·.tag = tag) with
    | some n => b.closeMany (n + 1)
    | none => b

/-- Closes all that is open and gives the trees. -/
def finish (b : Builder) : List Tree := (b.closeMany b.opened.length).trees.reverse

end Builder

/-- Markup that has no reading. -/
structure ParseError where
  /-- The position of the construct that does not end, in bytes. -/
  offset : Nat
  /-- What is wrong. -/
  message : String
  deriving DecidableEq, Repr

/-- The text of the error. -/
def ParseError.display (e : ParseError) : String :=
  "markup parse error at byte " ++ toString e.offset ++ ": " ++ e.message

/-- Reads markup as far as it goes: the trees up to the end or to the first fault, and the
fault. -/
def parsePartial (markup : String) : List Tree × Option ParseError :=
  let s := markup.toList
  let (tokens, fault) := tokens s
  ((tokens.foldl Builder.push {}).finish, fault.map fun (fault, rest) =>
    ⟨Text.byteLength s - Text.byteLength rest, fault.message⟩)

/-- Reads markup. -/
def parse (markup : String) : Except ParseError (List Tree) :=
  match parsePartial markup with
  | (trees, none) => .ok trees
  | (_, some e) => .error e

end Rivulet.Markup
