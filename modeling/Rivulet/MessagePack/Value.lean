import Rivulet.Json.Basic
import Rivulet.MessagePack.Packed

/-!
# JSON values in MessagePack

Every JSON value has a packed form. The other way, texts must be UTF-8, numbers that are not
finite count as absent, and plain bytes have no JSON value. The first name of an object must
be a text; the names behind it may also be plain bytes.
-/

namespace Rivulet.MessagePack

/-- A text as its UTF-8 bytes. -/
def Packed.ofString (s : String) : Packed := .text s.toUTF8.toList

/-- The text of some bytes, if they are UTF-8. -/
def utf8? (bytes : List UInt8) : Option String := String.fromUTF8? ⟨bytes.toArray⟩

mutual

/-- The packed form of a value. -/
def Packed.ofJson : Json → Packed
  | .null => .nil
  | .bool b => .bool b
  | .int n => if 0 ≤ n then .unsigned n.toNat else .signed n
  | .float x => .float x
  | .str s => .ofString s
  | .arr items => .array (Packed.ofItems items)
  | .obj fields => .map (Packed.ofFields fields)

/-- The packed forms of several values. -/
def Packed.ofItems : List Json → List Packed
  | [] => []
  | v :: vs => Packed.ofJson v :: Packed.ofItems vs

/-- The packed forms of named values. -/
def Packed.ofFields : List (String × Json) → List (Packed × Packed)
  | [] => []
  | (k, v) :: vs => (.ofString k, Packed.ofJson v) :: Packed.ofFields vs

end

/-- The text of a name. Plain bytes will do for all names of an object but the first. -/
def Packed.name? (isFirst : Bool) : Packed → Option String
  | .text bytes => utf8? bytes
  | .binary bytes => if isFirst then none else utf8? bytes
  | _ => none

mutual

/-- The JSON value of a packed one. -/
def Packed.json? : Packed → Option Json
  | .nil => some .null
  | .bool b => some (.bool b)
  | .unsigned n => some (.int n)
  | .signed n => some (.int n)
  | .float x => some (if x.isFinite then .float x else .null)
  | .text bytes => (utf8? bytes).map .str
  | .binary _ => none
  | .extended _ => none
  | .array items => (Packed.items? items).map .arr
  | .map pairs => (Packed.fields? true pairs).map .ofFields

/-- The JSON values of several packed ones. -/
def Packed.items? : List Packed → Option (List Json)
  | [] => some []
  | v :: vs =>
    match Packed.json? v, Packed.items? vs with
    | some x, some xs => some (x :: xs)
    | _, _ => none

/-- The named JSON values of packed pairs, given whether they start the object. -/
def Packed.fields? (isFirst : Bool) : List (Packed × Packed) → Option (List (String × Json))
  | [] => some []
  | (k, v) :: vs =>
    match k.name? isFirst, Packed.json? v, Packed.fields? false vs with
    | some name, some x, some xs => some ((name, x) :: xs)
    | _, _, _ => none

end

end Rivulet.MessagePack
