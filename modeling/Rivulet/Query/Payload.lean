import Rivulet.Json.Parser
import Rivulet.Json.Printer
import Rivulet.MessagePack.Value
import Rivulet.Text.Plain
import Rivulet.Text.Search

/-!
# The payload of a render

The values of the queries that a server resolved, in the order of discovery, each key once.
A payload travels as JSON, as MessagePack, or as a script inside the page; a script is
written so that nothing in it can end its element.
-/

namespace Rivulet.Query

/-- A resolved query. -/
structure Entry where
  /-- The key of the query. -/
  key : String
  /-- Its value. -/
  value : Json

/-- Resolved queries, each key once. -/
structure Payload where
  /-- The queries, in the order of discovery. -/
  entries : List Entry := []

/-- Why a payload or a frame cannot be written or read. -/
inductive PayloadError where
  /-- A text is no JSON, or no JSON of this form. -/
  | json
  /-- Bytes are no MessagePack, or no MessagePack of this form. -/
  | messagePack
  /-- A text is no frame. -/
  | frame (message : String)
  /-- A variable has a name that cannot be assigned to. -/
  | variableName (name : String)
  deriving DecidableEq, Repr

/-- The text of an error; what is wrong with the data itself is left open. -/
def PayloadError.display : PayloadError → String
  | json => "payload JSON error"
  | messagePack => "payload MessagePack decode error"
  | frame message => "malformed prefetch frame: " ++ message
  | variableName name => "payload variable " ++ Text.quoted name ++
      " is not a JavaScript identifier"

/-- An error as a value: its kind, and its text where the text is fixed. -/
def PayloadError.value (e : PayloadError) : Json :=
  match e with
  | json => .ofFields [("error", .str "Json")]
  | messagePack => .ofFields [("error", .str "MsgpackDecode")]
  | frame _ => .ofFields [("error", .str "Frame"), ("message", .str e.display)]
  | variableName _ => .ofFields [("error", .str "InvalidVar"), ("message", .str e.display)]

namespace Entry

/-- The entry as a pair of its key and its value. -/
def pair (e : Entry) : Json := .arr [.str e.key, e.value]

/-- The entry as a JSON value. -/
def json (e : Entry) : Json := .obj [("key", .str e.key), ("value", e.value)]

/-- The one field of a name, if there is exactly one. -/
def single? {α : Type} (name : String) (fields : List (String × α)) : Option α :=
  match fields.filter (·.1 = name) with
  | [(_, v)] => some v
  | _ => none

/-- The text of a string that was written. -/
def rawText? : Json.Raw → Option String
  | .string pieces => Json.pieceText? pieces
  | _ => none

/-- Reads an entry from an object with a key and a value, other fields aside, or from a pair.
The value may be nested up to the given depth. -/
def ofRaw? (depth : Nat) (raw : Json.Raw) : Option Entry := do
  let (key, value) ← match raw with
    | .object fields => do
      let fields ← fields.mapM fun (k, v) => (Json.pieceText? k).map (·, v)
      pure (← single? "key" fields, ← single? "value" fields)
    | .array [key, value] => some (key, value)
    | _ => none
  return ⟨← rawText? key, ← value.value? depth⟩

/-- Reads an entry that stands alone in a text. -/
def parse? (text : List Char) : Option Entry := (Json.Raw.read? text).bind (ofRaw? 126)

/-- What a packed field name stands for: names and places count alike. -/
def fieldOf? : MessagePack.Packed → Option String
  | .text bytes | .binary bytes =>
    if bytes = "key".toUTF8.toList then some "key"
    else if bytes = "value".toUTF8.toList then some "value"
    else some ""
  | .unsigned 0 => some "key"
  | .unsigned 1 => some "value"
  | .unsigned _ => some ""
  | _ => none

/-- The text of a packed key. -/
def packedText? : MessagePack.Packed → Option String
  | .text bytes | .binary bytes => MessagePack.utf8? bytes
  | _ => none

/-- Reads an entry from its packed form. -/
def ofPacked? (packed : MessagePack.Packed) : Option Entry := do
  let (key, value) ← match packed with
    | .map pairs => do
      let fields ← pairs.mapM fun (k, v) => (fieldOf? k).map (·, v)
      pure (← single? "key" fields, ← single? "value" fields)
    | .array [key, value] => some (key, value)
    | _ => none
  return ⟨← packedText? key, ← value.json?⟩

end Entry

namespace Payload

/-- Whether two payloads hold equal entries in the same order. -/
def beq (a b : Payload) : Bool :=
  a.entries.length == b.entries.length &&
    (a.entries.zip b.entries).all fun (x, y) => x.key == y.key && x.value == y.value

/-- Puts a value among entries; a key that is there keeps its place. -/
def put (key : String) (value : Json) : List Entry → List Entry
  | [] => [⟨key, value⟩]
  | e :: rest => if e.key = key then ⟨key, value⟩ :: rest else e :: put key value rest

/-- Adds a value; a key that is there keeps its place. -/
def push (p : Payload) (key : String) (value : Json) : Payload := ⟨put key value p.entries⟩

/-- The payload made of pairs, pushed one after the other. -/
def ofList (pairs : List (String × Json)) : Payload :=
  pairs.foldl (fun p (k, v) => p.push k v) {}

/-- Adds all entries of another payload. -/
def extend (p other : Payload) : Payload := other.entries.foldl (fun p e => p.push e.key e.value) p

/-- The value of a key. -/
def get? (p : Payload) (key : String) : Option Json :=
  (p.entries.find? (·.key = key)).map (·.value)

/-- A value that was pushed is the one of its key, and the values of the others stay. -/
theorem get?_push (p : Payload) (key : String) (value : Json) (k : String) :
    (p.push key value).get? k = if key = k then some value else p.get? k := by
  obtain ⟨entries⟩ := p
  simp only [push, get?]
  induction entries with
  | nil => by_cases hk : key = k <;> simp [put, hk]
  | cons e rest ih =>
    rw [put]
    by_cases he : e.key = key
    · rw [if_pos he, List.find?_cons, List.find?_cons, he]
      by_cases hk : key = k <;> simp [hk]
    · rw [if_neg he, List.find?_cons, List.find?_cons]
      by_cases hk : e.key = k
      · have hne : key ≠ k := fun h => he (hk.trans h.symm)
        simp [hk, hne]
      · simpa [hk] using ih

/-- What the other payload says last of a key counts, and what was there where it says nothing. -/
theorem get?_extend (p other : Payload) (k : String) :
    (p.extend other).get? k =
      ((other.entries.reverse.find? (·.key = k)).map (·.value)).or (p.get? k) := by
  obtain ⟨entries⟩ := other
  rw [extend]
  induction entries generalizing p with
  | nil => rfl
  | cons e rest ih =>
    rw [List.foldl_cons, ih, List.reverse_cons, List.find?_append, get?_push]
    cases rest.reverse.find? (·.key = k) with
    | some last => rfl
    | none => by_cases hk : e.key = k <;> simp [hk]

/-- Whether a key is there. -/
def contains (p : Payload) (key : String) : Bool := (p.get? key).isSome

/-- The keys in order. -/
def keys (p : Payload) : List String := p.entries.map (·.key)

/-- The number of entries. -/
def size (p : Payload) : Nat := p.entries.length

/-- The payload as a JSON value. -/
def json (p : Payload) : Json := .arr (p.entries.map Entry.json)

/-- The payload as a list of pairs. -/
def pairs (p : Payload) : Json := .arr (p.entries.map Entry.pair)

/-- The JSON text of the payload. -/
def print (p : Payload) : List Char := p.json.print

/-- Reads a payload from JSON text. -/
def parse? (text : List Char) : Option Payload := do
  match ← Json.Raw.read? text with
  | .array items => return ⟨← items.mapM (Entry.ofRaw? 125)⟩
  | _ => none

/-- Reads a payload from JSON text, or says that it is none. -/
def parse (text : List Char) : Except PayloadError Payload :=
  match parse? text with
  | some p => .ok p
  | none => .error .json

/-- The MessagePack form of the payload. -/
def pack (p : Payload) : List UInt8 := (MessagePack.Packed.ofJson p.json).write

/-- Reads a payload from MessagePack. Bytes count as a list of numbers, none of which is an
entry. -/
def unpack? (bytes : List UInt8) : Option Payload := do
  match ← MessagePack.Packed.read? bytes with
  | .array items => return ⟨← items.mapM Entry.ofPacked?⟩
  | .binary [] => return {}
  | _ => none

/-- Reads a payload from MessagePack, or says that it is none. -/
def unpack (bytes : List UInt8) : Except PayloadError Payload :=
  match unpack? bytes with
  | some p => .ok p
  | none => .error .messagePack

/-- Whether a character may start the name of a variable. -/
def startsName (c : Char) : Bool := c.isAlpha || c == '_' || c == '$'

/-- Whether a text is the name of a variable. -/
def isVariable : List Char → Bool
  | [] => false
  | c :: rest => startsName c && rest.all fun c => startsName c || c.isDigit

/-- The JSON text without anything that ends a script or opens a comment in one. -/
def inert (text : List Char) : List Char :=
  Text.replaceAll "<!--".toList "<\\u0021--".toList
    (Text.replaceAll "</".toList "<\\/".toList text)

/-- What stands in front of the name of the variable. -/
def scriptHead : String := "<script id=\"lattice-data\">window."

/-- What stands behind the payload. -/
def scriptTail : String := ";</script>"

/-- The script that assigns the payload to a variable. -/
def script (p : Payload) (name : String) : Except PayloadError String :=
  if isVariable name.toList then
    .ok (scriptHead ++ name ++ " = " ++ String.ofList (inert p.print) ++ scriptTail)
  else .error (.variableName name)

/-- Reads a payload from the body of its script: from the first bracket to the last. -/
def ofScript (body : List Char) : Except PayloadError Payload :=
  match body.dropWhile (· ≠ '[') with
  | [] => .error (.frame "payload script has no entry list")
  | text =>
    match text.reverse.dropWhile (· ≠ ']') with
    | [] => .error (.frame "payload script is truncated")
    | reversed => parse reversed.reverse

end Payload

end Rivulet.Query
