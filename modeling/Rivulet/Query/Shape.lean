import Rivulet.Json.Printer
import Rivulet.Text.Plain

/-!
# What a query may yield

A query names the shape of its values, and a value of another shape is refused with a
message that says what was found and what was expected. Failures of a query are told apart
by their cause.
-/

namespace Rivulet.Query

/-- The shape of the values of a query. -/
inductive Shape where
  /-- A text. -/
  | text
  /-- A whole number of 64 bits with sign. -/
  | int
  /-- A truth value. -/
  | bool
  /-- A list of texts. -/
  | texts
  /-- Any value. -/
  | any
  deriving DecidableEq, Repr

/-- Whether a number is one of 64 bits with sign. -/
def isInt64 (n : Int) : Bool := -0x8000000000000000 ≤ n && n < 0x8000000000000000

/-- A piece of a message in the quotes of code. -/
def ticked (s : String) : String := "\x60" ++ s ++ "\x60"

/-- What a message calls a value. -/
def describe : Json → String
  | .null => "null"
  | .bool b => "boolean " ++ ticked (if b then "true" else "false")
  | .int n => "integer " ++ ticked (Json.int n).compact
  | .float x => "floating point " ++ ticked (Json.float x).compact
  | .str s => "string " ++ Text.quoted s
  | .arr _ => "sequence"
  | .obj _ => "map"

/-- The refusal of a value of another kind. -/
def wrongType (found : Json) (expected : String) : String :=
  "invalid type: " ++ describe found ++ ", expected " ++ expected

/-- Accepts a value as a text. -/
def checkText (v : Json) : Except String Json :=
  match v with
  | .str _ => .ok v
  | v => .error (wrongType v "a string")

/-- Accepts each of several values as a text; the first refusal counts. -/
def checkTexts : List Json → Except String Unit
  | [] => .ok ()
  | v :: vs =>
    match checkText v with
    | .error message => .error message
    | .ok _ => checkTexts vs

/-- Accepts a value of the shape, or says why not. -/
def Shape.check (shape : Shape) (v : Json) : Except String Json :=
  match shape, v with
  | .any, v => .ok v
  | .text, v => checkText v
  | .bool, .bool b => .ok (.bool b)
  | .bool, v => .error (wrongType v "a boolean")
  | .int, .int n =>
    if isInt64 n then .ok (.int n)
    else .error ("invalid value: " ++ describe (.int n) ++ ", expected i64")
  | .int, v => .error (wrongType v "i64")
  | .texts, .arr items => (checkTexts items).map fun _ => .arr items
  | .texts, v => .error (wrongType v "a sequence")

/-- Why a query has no value. -/
inductive Failure where
  /-- The fetch failed. -/
  | fetch (message : String)
  /-- What was fetched has another shape. -/
  | decode (message : String)
  /-- The fetch was called off. -/
  | cancelled
  deriving DecidableEq, Repr

/-- The text of a failure. -/
def Failure.display : Failure → String
  | fetch message => "query fetch failed: " ++ message
  | decode message => "query value could not be decoded: " ++ message
  | cancelled => "query task was cancelled"

/-- An error that was caught, as it shows itself to a reader of logs. -/
def caughtSummary (display : String) : String := "CaughtError(" ++ Text.quoted display ++ ")"

end Rivulet.Query
