import Rivulet.Json.Raw

/-!
# Values from JSON text

The values that a written text stands for. Surrogates come in pairs, a number fits a
double, and lists and objects are nested no deeper than the reader allows.
-/

namespace Rivulet.Json

/-- The character of a surrogate pair. -/
def pairChar (high low : Nat) : Char :=
  Char.ofNat (0x10000 + (high - 0xd800) * 0x400 + (low - 0xdc00))

/-- The characters that the pieces of a string stand for. A surrogate without its partner
stands for none. -/
def joinPieces : List Piece → Option (List Char)
  | [] => some []
  | .char c :: rest => (joinPieces rest).map (c :: ·)
  | .unit a :: rest =>
    if 0xd800 ≤ a && a ≤ 0xdbff then
      match rest with
      | .unit b :: rest =>
        if 0xdc00 ≤ b && b ≤ 0xdfff then (joinPieces rest).map (pairChar a b :: ·) else none
      | _ => none
    else if 0xdc00 ≤ a && a ≤ 0xdfff then none
    else (joinPieces rest).map (Char.ofNat a :: ·)

/-- The text of a string. -/
def pieceText? (pieces : List Piece) : Option String :=
  (joinPieces pieces).map String.ofList

/-- The number that digits stand for. -/
def natOfDigits (ds : List Char) : Nat :=
  ds.foldl (fun n c => n * 10 + Decimal.digitValue c) 0

/-- The sign applied to a magnitude. -/
def signed (negative : Bool) (x : Float) : Float := if negative then -x else x

/-- The power of ten written behind a number. -/
def Digits.shift (d : Digits) : Int :=
  match d.exponent with
  | none => 0
  | some (positive, ds) => if positive then natOfDigits ds else -(natOfDigits ds : Int)

/-- The double that a number stands for, unless it is out of range. -/
def Digits.float? (d : Digits) : Option Float :=
  let whole := Decimal.Significand.whole d.whole ⟨0, 0⟩
  let all := match d.fraction with
    | none => whole
    | some ds => Decimal.Significand.fraction ds whole
  (Decimal.Significand.toFloat? { all with exponent := all.exponent + d.shift }).map
    (signed d.negative)

/-- The whole number that digits without point and exponent stand for, if it is in range;
the negative zero is no whole number. -/
def Digits.int? (d : Digits) : Option Int :=
  if d.fraction.isNone && d.exponent.isNone then
    let n := natOfDigits d.whole
    if d.negative then if 0 < n ∧ n ≤ 0x8000000000000000 then some (-(n : Int)) else none
    else if n < 0x10000000000000000 then some n else none
  else none

/-- The value of a number. -/
def Digits.value? (d : Digits) : Option Json :=
  match d.int? with
  | some n => some (.int n)
  | none => d.float?.map .float

mutual

/-- The value that was written, with at most the given depth of nesting. -/
def Raw.value? : Nat → Raw → Option Json
  | _, .null => some .null
  | _, .bool b => some (.bool b)
  | _, .number d => d.value?
  | _, .string pieces => (pieceText? pieces).map .str
  | 0, .array _ => none
  | 0, .object _ => none
  | depth + 1, .array items => (Raw.items? depth items).map .arr
  | depth + 1, .object fields => (Raw.fields? depth fields).map .ofFields

/-- The values of a list. -/
def Raw.items? : Nat → List Raw → Option (List Json)
  | _, [] => some []
  | depth, v :: vs =>
    match Raw.value? depth v, Raw.items? depth vs with
    | some x, some xs => some (x :: xs)
    | _, _ => none

/-- The named values of an object, in the order written. -/
def Raw.fields? : Nat → List (List Piece × Raw) → Option (List (String × Json))
  | _, [] => some []
  | depth, (k, v) :: vs =>
    match pieceText? k, Raw.value? depth v, Raw.fields? depth vs with
    | some name, some x, some xs => some ((name, x) :: xs)
    | _, _, _ => none

end

/-- How deep lists and objects may be nested in data. -/
def maxDepth : Nat := 127

/-- Reads a value with the given bound on its nesting. -/
def parseWithin (depth : Nat) (text : String) : Option Json :=
  (Raw.read? text.toList).bind (Raw.value? depth)

/-- Reads a value. -/
def parse (text : String) : Option Json := parseWithin maxDepth text

end Rivulet.Json
