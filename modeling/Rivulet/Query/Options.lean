import Rivulet.Json.Parser
import Rivulet.Json.Printer

/-!
# Options of a server render

How long queries are waited for, and whether and where the payload is put. The stored form
counts milliseconds in 64 bits; what is finer or larger is lost in it.
-/

namespace Rivulet.Query

/-- Options of a server render. -/
structure Options where
  /-- How long each query is waited for, in nanoseconds; zero turns data loading off. -/
  timeout : Nat := 100000000
  /-- The variable that the payload is assigned to. -/
  variableName : String := "__LATTICE_DATA__"
  /-- Whether there is a payload script. -/
  includePayload : Bool := true
  deriving DecidableEq, Repr

namespace Options

/-- A number of milliseconds, in nanoseconds. -/
def milliseconds (n : Nat) : Nat := n * 1000000

/-- A number of microseconds, in nanoseconds. -/
def microseconds (n : Nat) : Nat := n * 1000

/-- The timeout in whole milliseconds, as far as 64 bits go. -/
def storedTimeout (o : Options) : Nat := o.timeout / 1000000 % 0x10000000000000000

/-- The stored form. -/
def print (o : Options) : List Char :=
  "\x7b\"ssr_timeout_ms\":".toList ++ Json.printInt o.storedTimeout ++
    ",\"payload_var\":".toList ++ Json.printString o.variableName ++
    ",\"include_payload\":".toList ++ (Json.bool o.includePayload).print ++ ['\x7d']

/-- A field that is stored. -/
inductive Field where
  /-- The timeout. -/
  | timeout
  /-- The variable. -/
  | variableName
  /-- Whether there is a payload script. -/
  | includePayload
  deriving DecidableEq, Repr

/-- The fields in the order in which they are stored. -/
def Field.all : List Field := [timeout, variableName, includePayload]

/-- The stored name of a field. -/
def Field.name : Field → String
  | timeout => "ssr_timeout_ms"
  | variableName => "payload_var"
  | includePayload => "include_payload"

/-- Sets a field to a value that was read. -/
def setField (o : Options) (field : Field) (raw : Json.Raw) : Option Options :=
  match field, raw with
  | .timeout, .number d =>
    match d.int? with
    | some n => if 0 ≤ n then some { o with timeout := milliseconds n.toNat } else none
    | none => none
  | .variableName, .string pieces =>
    (Json.pieceText? pieces).map fun s => { o with variableName := s }
  | .includePayload, .bool b => some { o with includePayload := b }
  | _, _ => none

/-- Sets a field to the one value that is given for it, if any. -/
def setNamed (fields : List (String × Json.Raw)) (o : Options) (field : Field) : Option Options :=
  match fields.filter (·.1 = field.name) with
  | [] => some o
  | [(_, raw)] => o.setField field raw
  | _ => none

/-- Reads options from an object, other fields aside, or from a list of the values of the
first fields. What is missing has its usual value. -/
def ofRaw? : Json.Raw → Option Options
  | .object fields => do
    let fields ← fields.mapM fun (k, v) => (Json.pieceText? k).map (·, v)
    Field.all.foldlM (setNamed fields) {}
  | .array items =>
    if items.length ≤ Field.all.length then
      (Field.all.zip items).foldlM (fun o (field, raw) => o.setField field raw) {}
    else none
  | _ => none

/-- Reads options from their stored form. -/
def parse? (text : String) : Option Options := (Json.Raw.read? text.toList).bind ofRaw?

/-- The timeout that a timer keeps: whole milliseconds, never less than asked for. -/
def timerMilliseconds (nanoseconds : Nat) : Nat := (nanoseconds + 999999) / 1000000

end Options

/-- A change of options. -/
inductive Setting where
  /-- Sets the timeout, in milliseconds. -/
  | milliseconds (n : Nat)
  /-- Sets the timeout, in microseconds. -/
  | microseconds (n : Nat)
  /-- Turns data loading off. -/
  | noData
  /-- Sets the variable that the payload is assigned to. -/
  | variableName (name : String)
  /-- Leaves the payload script out. -/
  | noScript
  deriving DecidableEq, Repr

/-- The change that a list of its name and its argument stands for. -/
def Setting.ofJson (v : Json) : Setting :=
  let name := (v.item 0).text
  if name = "timeout" then .milliseconds (v.item 1).nat
  else if name = "timeout_us" then .microseconds (v.item 1).nat
  else if name = "no_data" then .noData
  else if name = "var" then .variableName (v.item 1).text
  else .noScript

/-- The options after a change. -/
def Options.set (o : Options) : Setting → Options
  | .milliseconds n => { o with timeout := Options.milliseconds n }
  | .microseconds n => { o with timeout := Options.microseconds n }
  | .noData => { o with timeout := 0 }
  | .variableName name => { o with variableName := name }
  | .noScript => { o with includePayload := false }

/-- The options in an object with a stored form, if there is any, and a list of changes. -/
def Options.ofJson? (v : Json) : Option Options := do
  let stored ← match v.field? "json" with
    | some (.str text) => Options.parse? text
    | _ => some {}
  return ((v.field? "build").getD .null).items.foldl (fun o s => o.set (Setting.ofJson s)) stored

end Rivulet.Query
