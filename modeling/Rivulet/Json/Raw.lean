import Rivulet.Json.Basic
import Rivulet.Decimal.Notation

/-!
# The grammar of JSON

Reading goes in two steps. The first one only follows the grammar and keeps what was
written: escapes, digits, repeated names. What a value may be (complete surrogate pairs,
numbers in range, bounded nesting) is decided in the second step, so that a reader can pass
over a part it has no use for.
-/

namespace Rivulet.Json

/-- A piece of a string as written. -/
inductive Piece where
  /-- A character, plain or by a short escape. -/
  | char (c : Char)
  /-- A UTF-16 unit given by its four hexadecimal digits. -/
  | unit (n : Nat)
  deriving DecidableEq, Repr

/-- A number as written. -/
structure Digits where
  /-- Whether a minus stands in front. -/
  negative : Bool
  /-- The digits before the point. -/
  whole : List Char
  /-- The digits behind the point, if there is one. -/
  fraction : Option (List Char)
  /-- The sign and the digits of the exponent, if there is one. -/
  exponent : Option (Bool × List Char)
  deriving DecidableEq, Repr

/-- A value as written. -/
inductive Raw where
  /-- The literal `null`. -/
  | null
  /-- One of the two truth literals. -/
  | bool (b : Bool)
  /-- A number. -/
  | number (d : Digits)
  /-- A string. -/
  | string (pieces : List Piece)
  /-- A list. -/
  | array (items : List Raw)
  /-- An object, its fields in the order written. -/
  | object (fields : List (List Piece × Raw))
  deriving Inhabited

/-- The blanks that may stand between tokens. -/
def isGap (c : Char) : Bool := c == ' ' || c == '\n' || c == '\t' || c == '\r'

/-- The text behind its leading blanks. -/
def skipGap (s : List Char) : List Char := s.dropWhile isGap

/-- The value of a hexadecimal digit. -/
def hexValue? (c : Char) : Option Nat :=
  if '0' ≤ c && c ≤ '9' then some (c.toNat - '0'.toNat)
  else if 'a' ≤ c && c ≤ 'f' then some (c.toNat - 'a'.toNat + 10)
  else if 'A' ≤ c && c ≤ 'F' then some (c.toNat - 'A'.toNat + 10)
  else none

/-- The unit given by four hexadecimal digits. -/
def hexUnit? (a b c d : Char) : Option Nat := do
  return (((← hexValue? a) * 16 + (← hexValue? b)) * 16 + (← hexValue? c)) * 16 + (← hexValue? d)

/-- The character that a short escape stands for. -/
def shortEscape? : Char → Option Char
  | '"' => some '"'
  | '\\' => some '\\'
  | '/' => some '/'
  | 'b' => some '\x08'
  | 'f' => some '\x0c'
  | 'n' => some '\n'
  | 'r' => some '\r'
  | 't' => some '\t'
  | _ => none

/-- The pieces of a string up to its closing quote, and what follows. -/
def readString : List Char → Option (List Piece × List Char)
  | [] => none
  | '"' :: rest => some ([], rest)
  | '\\' :: 'u' :: a :: b :: c :: d :: rest =>
    match hexUnit? a b c d, readString rest with
    | some n, some (pieces, after) => some (.unit n :: pieces, after)
    | _, _ => none
  | '\\' :: e :: rest =>
    match shortEscape? e, readString rest with
    | some c, some (pieces, after) => some (.char c :: pieces, after)
    | _, _ => none
  | c :: rest =>
    if c.toNat < 0x20 || c == '\\' then none
    else (readString rest).map fun (pieces, after) => (.char c :: pieces, after)

/-- Splits the digits off the front. -/
def spanDigits (s : List Char) : List Char × List Char :=
  (s.takeWhile Char.isDigit, s.dropWhile Char.isDigit)

/-- The digits before the point: a zero stands alone. -/
def readWhole (s : List Char) : Option (List Char × List Char) :=
  match spanDigits s with
  | ([], _) => none
  | ('0' :: _ :: _, _) => none
  | found => some found

/-- The digits behind a point, if one follows. -/
def readFraction : List Char → Option (Option (List Char) × List Char)
  | '.' :: s =>
    match spanDigits s with
    | ([], _) => none
    | (ds, rest) => some (some ds, rest)
  | s => some (none, s)

/-- The sign of an exponent; true for a positive one. -/
def readSign : List Char → Bool × List Char
  | '+' :: s => (true, s)
  | '-' :: s => (false, s)
  | s => (true, s)

/-- An exponent, if one follows. -/
def readExponent (s : List Char) : Option (Option (Bool × List Char) × List Char) :=
  match s with
  | c :: rest =>
    if c == 'e' || c == 'E' then
      let (positive, rest) := readSign rest
      match spanDigits rest with
      | ([], _) => none
      | (ds, rest) => some (some (positive, ds), rest)
    else some (none, s)
  | [] => some (none, [])

/-- A number without its sign. -/
def readUnsigned (negative : Bool) (s : List Char) : Option (Raw × List Char) := do
  let (whole, s) ← readWhole s
  let (fraction, s) ← readFraction s
  let (exponent, s) ← readExponent s
  return (.number ⟨negative, whole, fraction, exponent⟩, s)

mutual

/-- A value at the front of a text without leading blanks. -/
def readValue : Nat → List Char → Option (Raw × List Char)
  | 0, _ => none
  | fuel + 1, s =>
    match s with
    | 'n' :: 'u' :: 'l' :: 'l' :: s => some (.null, s)
    | 't' :: 'r' :: 'u' :: 'e' :: s => some (.bool true, s)
    | 'f' :: 'a' :: 'l' :: 's' :: 'e' :: s => some (.bool false, s)
    | '"' :: s => (readString s).map fun (pieces, s) => (.string pieces, s)
    | '[' :: s =>
      match skipGap s with
      | ']' :: s => some (.array [], s)
      | s => (readItems fuel s).map fun (items, s) => (.array items, s)
    | '\x7b' :: s =>
      match skipGap s with
      | '\x7d' :: s => some (.object [], s)
      | s => (readFields fuel s).map fun (fields, s) => (.object fields, s)
    | '-' :: s => readUnsigned true s
    | s => readUnsigned false s

/-- The items of a list up to its closing bracket. -/
def readItems : Nat → List Char → Option (List Raw × List Char)
  | 0, _ => none
  | fuel + 1, s =>
    match readValue fuel s with
    | none => none
    | some (v, s) =>
      match skipGap s with
      | ']' :: s => some ([v], s)
      | ',' :: s => (readItems fuel (skipGap s)).map fun (vs, s) => (v :: vs, s)
      | _ => none

/-- The fields of an object up to its closing brace. -/
def readFields : Nat → List Char → Option (List (List Piece × Raw) × List Char)
  | 0, _ => none
  | fuel + 1, s =>
    match s with
    | '"' :: s =>
      match readString s with
      | none => none
      | some (name, s) =>
        match skipGap s with
        | ':' :: s =>
          match readValue fuel (skipGap s) with
          | none => none
          | some (v, s) =>
            match skipGap s with
            | '\x7d' :: s => some ([(name, v)], s)
            | ',' :: s =>
              (readFields fuel (skipGap s)).map fun (fields, s) => ((name, v) :: fields, s)
            | _ => none
        | _ => none
    | _ => none

end

/-- Reads a whole text. Each step into a value takes a character, so twice the length bounds
the steps. -/
def Raw.read? (s : List Char) : Option Raw :=
  match readValue (2 * s.length + 2) (skipGap s) with
  | some (v, rest) => if (skipGap rest).isEmpty then some v else none
  | none => none

end Rivulet.Json
