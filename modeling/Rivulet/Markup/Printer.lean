import Rivulet.Markup.Tree
import Rivulet.Markup.Entity

/-!
# Writing markup

Just enough structure for the reader to rebuild the same trees: an empty text becomes a
comment, texts side by side are kept apart by an empty comment, and the ends of a fragment
are comments of their own.
-/

namespace Rivulet.Markup

/-- Elements that have no content and no closing tag. -/
def voidTags : List String :=
  ["area", "base", "br", "col", "embed", "hr", "img", "input", "link", "meta", "source", "track",
    "wbr"]

/-- Whether an element of this tag has no content. -/
def isVoid (tag : String) : Bool := voidTags.contains tag

/-- Whether the content of an element of this tag is plain text up to its closing tag. -/
def isRaw (tag : String) : Bool := tag == "script" || tag == "style"

/-- What a comment holds that stands for an empty text. -/
def emptyTextMark : String := "t"

/-- What a comment holds that stands for an end of a fragment. -/
def Edge.mark : Edge → String
  | .opening => "["
  | .closing => "]"

/-- A comment with the given content. -/
def comment (content : String) : List Char :=
  ['<', '!', '-', '-'] ++ content.toList ++ ['-', '-', '>']

/-- What keeps two texts apart. -/
def textSeparator : List Char := comment ""

/-- The written attributes; an empty value is left out. -/
def printAttrs (attrs : Attributes) : List Char :=
  attrs.flatMap fun (name, value) =>
    ' ' :: name.toList ++
      (if value.isEmpty then [] else '=' :: '"' :: escapeAttr value.toList ++ ['"'])

/-- An opening tag up to its closing bracket. -/
def openTag (tag : String) (attrs : Attributes) : List Char :=
  '<' :: tag.toList ++ printAttrs attrs

/-- A closing tag. -/
def closeTag (tag : String) : List Char := '<' :: '/' :: tag.toList ++ ['>']

/-- The text of a node without children. -/
def printText (content : String) : List Char :=
  if content.isEmpty then comment emptyTextMark else escapeText content.toList

mutual

/-- The markup of a tree. -/
def Tree.print : Tree → List Char
  | .node (.text content) _ => printText content
  | .node (.comment content) _ => comment content
  | .node (.marker edge) _ => comment edge.mark
  | .node (.element tag attrs) children =>
    openTag tag attrs ++
      (if isVoid tag then [' ', '/', '>']
      else '>' :: (if isRaw tag then Tree.printRaw children else Tree.printAll false children) ++
        closeTag tag)
  | .node (.wrapper w attrs) children =>
    openTag w.tag attrs ++ '>' :: Tree.printAll false children ++ closeTag w.tag

/-- The markup of neighbours, given whether a text stands in front of them. -/
def Tree.printAll : Bool → List Tree → List Char
  | _, [] => []
  | afterText, .node kind children :: rest =>
    (if afterText && kind.isText then textSeparator else []) ++
      Tree.print (.node kind children) ++ Tree.printAll kind.isText rest

/-- The texts among the children of an element with plain text inside; nothing else is
written there. -/
def Tree.printRaw : List Tree → List Char
  | [] => []
  | .node kind _ :: rest => ((kind.text?.map String.toList).getD []) ++ Tree.printRaw rest

end

/-- The markup of the children of a node with the given tag. -/
def printChildren (tag : Option String) (children : List Tree) : List Char :=
  if tag.any isRaw then Tree.printRaw children else Tree.printAll false children

/-- The markup of trees side by side. -/
def print (trees : List Tree) : String := String.ofList (Tree.printAll false trees)

end Rivulet.Markup
