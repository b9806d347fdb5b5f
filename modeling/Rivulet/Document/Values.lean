import Rivulet.Document.Basic
import Rivulet.Json.Printer

/-!
# Documents as values

Programs hold fragments as JSON values, and answers show trees as JSON values. A text value
is a text, an object with a tag is an element, and any other value shows as a text.
-/

namespace Rivulet

/-- The pairs in a list of pairs of texts; what is missing or no text is empty. -/
def Json.textPairs (v : Json) : List (String × String) :=
  v.items.map fun pair => ((pair.item 0).text, (pair.item 1).text)

namespace Fragment

mutual

/-- The fragment that a value stands for. -/
def ofJson : Json → Fragment
  | .str content => text content
  | .obj fields =>
    match fields.lookup "tag" with
    | some tag => element tag.text ((fields.lookup "attrs").getD .null).textPairs
        (childrenIn fields)
    | none => text (Json.obj fields).compact
  | v => text v.compact

/-- The children named among the fields of an object. -/
def childrenIn : List (String × Json) → List Fragment
  | [] => []
  | (name, value) :: rest =>
    if name = "children" then ofItems value else childrenIn rest

/-- The fragments that the items of a list stand for. -/
def ofItems : Json → List Fragment
  | .arr items => ofList items
  | _ => []

/-- The fragments that several values stand for. -/
def ofList : List Json → List Fragment
  | [] => []
  | v :: vs => ofJson v :: ofList vs

end

end Fragment

namespace Document

variable {α : Type}

/-- Attributes as a value. -/
def attrsValue (attrs : Markup.Attributes) : Json :=
  .arr (attrs.map fun (name, value) => .arr [.str name, .str value])

/-- A node as a value, given its children as values. Only elements and wrappers show them. -/
def nodeValue (id : DomId) (kind : Markup.Kind) (children : List Json) : Json :=
  let shown := match kind with
    | .element tag attrs => [.str "element", .str tag, attrsValue attrs, .arr children]
    | .wrapper w attrs => [.str "wrapper", .str w.tag, attrsValue attrs, .arr children]
    | .text content => [.str "text", .str content]
    | .comment content => [.str "comment", .str content]
    | .marker .opening => [.str "open"]
    | .marker .closing => [.str "close"]
  .arr (.str id.display :: shown)

/-- The tree below a node as a value. -/
def treeValue (d : Document α) (id : DomId) : Json := d.fold nodeValue id

/-- The trees of the children of a node as a value. -/
def forestValue (d : Document α) (id : DomId) : Json := .arr ((d.children id).map d.treeValue)

end Document

/-- A fault of markup as a value. -/
def Markup.ParseError.value (e : Markup.ParseError) : Json :=
  .ofFields [("error", .str "ParseError"), ("offset", .int e.offset), ("message", .str e.message),
    ("text", .str e.display)]

end Rivulet
