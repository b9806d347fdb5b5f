import Rivulet.Json.Basic
import Rivulet.Decimal.Notation

/-!
# Compact JSON text

The one text of a value: no blanks, the fields in the order of their names, and only
quotes, backslashes and control characters escaped inside strings.
-/

namespace Rivulet.Json

/-- A hexadecimal digit, lower case. -/
def hexDigit (n : Nat) : Char := Nat.digitChar n

/-- How one character is written inside a string. -/
def escapeChar (c : Char) : List Char :=
  match c with
  | '"' => ['\\', '"']
  | '\\' => ['\\', '\\']
  | '\x08' => ['\\', 'b']
  | '\x0c' => ['\\', 'f']
  | '\n' => ['\\', 'n']
  | '\r' => ['\\', 'r']
  | '\t' => ['\\', 't']
  | c =>
    if c.toNat < 0x20 then ['\\', 'u', '0', '0', hexDigit (c.toNat / 16), hexDigit (c.toNat % 16)]
    else [c]

/-- A string between its quotes. -/
def printString (s : String) : List Char := '"' :: s.toList.flatMap escapeChar ++ ['"']

/-- The digits of a whole number. -/
def printInt (n : Int) : List Char :=
  if n < 0 then '-' :: Nat.toDigits 10 n.natAbs else Nat.toDigits 10 n.natAbs

/-- The literal that stands for the absent value and for numbers that have no text. -/
def nullText : List Char := ['n', 'u', 'l', 'l']

mutual

/-- The compact text of a value. -/
def print : Json → List Char
  | null => nullText
  | bool true => ['t', 'r', 'u', 'e']
  | bool false => ['f', 'a', 'l', 's', 'e']
  | int n => printInt n
  | float x => (Decimal.ofFloat? x).getD nullText
  | str s => printString s
  | arr items => '[' :: printItems items
  | obj fields => '\x7b' :: printFields fields

/-- The items of a list from the first one on, and the closing bracket. -/
def printItems : List Json → List Char
  | [] => [']']
  | v :: vs => print v ++ printMoreItems vs

/-- The items of a list behind the first one. -/
def printMoreItems : List Json → List Char
  | [] => [']']
  | v :: vs => ',' :: print v ++ printMoreItems vs

/-- The fields of an object from the first one on, and the closing brace. -/
def printFields : List (String × Json) → List Char
  | [] => ['\x7d']
  | (k, v) :: vs => printString k ++ ':' :: print v ++ printMoreFields vs

/-- The fields of an object behind the first one. -/
def printMoreFields : List (String × Json) → List Char
  | [] => ['\x7d']
  | (k, v) :: vs => ',' :: printString k ++ ':' :: print v ++ printMoreFields vs

end

/-- The compact text of a value. -/
def compact (v : Json) : String := String.ofList v.print

/-- A text itself, any other value by its compact text. -/
def display : Json → String
  | str s => s
  | v => v.compact

end Rivulet.Json
