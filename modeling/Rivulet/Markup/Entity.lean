import Rivulet.Text.Search

/-!
# Character references

The characters that markup reserves are written as references. Reading knows a few more of
them; the ampersand is restored last, so that what it restores is never read again.
-/

namespace Rivulet.Markup

/-- How a character is written in the text of an element. -/
def escapeTextChar (c : Char) : List Char :=
  match c with
  | '&' => "&amp;".toList
  | '<' => "&lt;".toList
  | '>' => "&gt;".toList
  | c => [c]

/-- How a character is written in the value of an attribute. -/
def escapeAttrChar (c : Char) : List Char :=
  match c with
  | '"' => "&quot;".toList
  | c => escapeTextChar c

/-- The written form of a text. -/
def escapeText (s : List Char) : List Char := s.flatMap escapeTextChar

/-- The written form of an attribute value. -/
def escapeAttr (s : List Char) : List Char := s.flatMap escapeAttrChar

/-- The references that reading knows, in the order in which they are restored. -/
def entities : List (List Char × Char) :=
  [("&lt;".toList, '<'), ("&gt;".toList, '>'), ("&quot;".toList, '"'), ("&#x27;".toList, '\''),
    ("&#39;".toList, '\''), ("&nbsp;".toList, '\u00a0'), ("&amp;".toList, '&')]

/-- Restores the characters that references stand for, one kind of reference after the
other. -/
def unescape (s : List Char) : List Char :=
  entities.foldl (fun s (name, c) => Text.replaceAll name [c] s) s

end Rivulet.Markup
