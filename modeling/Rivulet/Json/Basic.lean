/-!
# JSON values

The dynamic values that signals hold and that payloads carry. Whole numbers and fractions
are different values; the fields of an object are kept in the order of their names, each
name once.
-/

namespace Rivulet

/-- A JSON value. -/
inductive Json where
  /-- The absent value. -/
  | null
  /-- A truth value. -/
  | bool (b : Bool)
  /-- A whole number between the least signed and the greatest unsigned 64-bit number. -/
  | int (n : Int)
  /-- A number with a point or an exponent, or a whole number outside that range. -/
  | float (x : Float)
  /-- A text. -/
  | str (s : String)
  /-- A list of values. -/
  | arr (items : List Json)
  /-- Named values, in the order of the names. -/
  | obj (fields : List (String × Json))
  deriving Inhabited

namespace Json

mutual

/-- Equality of values: numbers of different kinds differ, and the two zeros are equal. -/
def beq : Json → Json → Bool
  | null, null => true
  | bool a, bool b => a == b
  | int a, int b => a == b
  | float a, float b => a == b
  | str a, str b => a == b
  | arr a, arr b => beqItems a b
  | obj a, obj b => beqFields a b
  | _, _ => false

/-- Equality of lists of values, in order. -/
def beqItems : List Json → List Json → Bool
  | [], [] => true
  | a :: as, b :: bs => beq a b && beqItems as bs
  | _, _ => false

/-- Equality of named values. -/
def beqFields : List (String × Json) → List (String × Json) → Bool
  | [], [] => true
  | (k, a) :: as, (l, b) :: bs => k == l && beq a b && beqFields as bs
  | _, _ => false

end

instance : BEq Json := ⟨beq⟩

/-- Puts a named value in its place by name; a value of that name is replaced. -/
def insertField (name : String) (value : Json) : List (String × Json) → List (String × Json)
  | [] => [(name, value)]
  | (k, v) :: rest =>
    if name < k then (name, value) :: (k, v) :: rest
    else if name = k then (name, value) :: rest
    else (k, v) :: insertField name value rest

/-- The object with the given fields; of several values of one name the last one counts. -/
def ofFields (fields : List (String × Json)) : Json :=
  .obj (fields.foldl (fun acc (k, v) => insertField k v acc) [])

/-- The value of a field of an object. -/
def field? (name : String) : Json → Option Json
  | obj fields => fields.lookup name
  | _ => none

/-- The items of a list, none for any other value. -/
def items : Json → List Json
  | arr items => items
  | _ => []

/-- An item of a list, `null` where there is none. -/
def item (v : Json) (i : Nat) : Json := v.items.getD i null

/-- The text, if the value is one. -/
def text? : Json → Option String
  | str s => some s
  | _ => none

/-- The text, empty for any other value. -/
def text (v : Json) : String := v.text?.getD ""

/-- The number, if the value is a whole one that is not negative. -/
def nat? : Json → Option Nat
  | int n => if 0 ≤ n then some n.toNat else none
  | _ => none

/-- The number, zero for any value that is not a whole number from zero on. -/
def nat (v : Json) : Nat := v.nat?.getD 0

/-- An optional value as the list of its at most one element. -/
def ofOption : Option Json → Json
  | none => null
  | some v => arr [v]

/-- The value, or `null` for none. -/
def orNull (v : Option Json) : Json := v.getD null

mutual

/-- How deep lists and objects are nested. -/
def depth : Json → Nat
  | arr items => depthItems items + 1
  | obj fields => depthFields fields + 1
  | _ => 0

/-- The greatest depth in a list. -/
def depthItems : List Json → Nat
  | [] => 0
  | v :: vs => max (depth v) (depthItems vs)

/-- The greatest depth among named values. -/
def depthFields : List (String × Json) → Nat
  | [] => 0
  | (_, v) :: vs => max (depth v) (depthFields vs)

end

mutual

/-- Whether no number in the value is a fraction. -/
def isWhole : Json → Bool
  | float _ => false
  | arr items => isWholeItems items
  | obj fields => isWholeFields fields
  | _ => true

/-- Whether no number in a list is a fraction. -/
def isWholeItems : List Json → Bool
  | [] => true
  | v :: vs => isWhole v && isWholeItems vs

/-- Whether no number among named values is a fraction. -/
def isWholeFields : List (String × Json) → Bool
  | [] => true
  | (_, v) :: vs => isWhole v && isWholeFields vs

end

end Json

end Rivulet
