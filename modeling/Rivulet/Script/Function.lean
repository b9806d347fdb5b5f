import Rivulet.Query.Shape
import Rivulet.Script.Basic

/-!
# The functions of scripts

Whole numbers have 64 bits with sign and wrap; what is no such number counts as zero.
-/

namespace Rivulet

/-- The whole number of 64 bits with sign that a value is, zero for any other value. -/
def Json.word : Json → Int
  | .int n => if Query.isInt64 n then n else 0
  | _ => 0

/-- Whether a value counts as true: all but the absent value, falsehood, the whole number
zero and the empty text. -/
def Json.isTruthy : Json → Bool
  | .null => false
  | .bool b => b
  | .int n => n != 0
  | .str s => s != ""
  | _ => true

namespace Script

/-- A whole number wrapped to 64 bits with sign. -/
def wrap (n : Int) : Int := n.bmod 0x10000000000000000

/-- An argument, `null` if it is missing. -/
def arg (args : List Json) (i : Nat) : Json := args.getD i .null

/-- The value of a function. -/
def Function.value (f : Function) (args : List Json) : Json :=
  match f with
  | add => .int (args.foldl (fun n v => wrap (n + v.word)) 0)
  | mul => .int (args.foldl (fun n v => wrap (n * v.word)) 1)
  | mod => .int (if (arg args 1).word = 0 then 0 else (arg args 0).word.emod (arg args 1).word)
  | lt => .bool ((arg args 0).word < (arg args 1).word)
  | eq => .bool (arg args 0 == arg args 1)
  | not => .bool !(arg args 0).isTruthy
  | cat => .str (String.join (args.map (·.display)))
  | list => .arr args
  | push => .arr ((arg args 0).items ++ [arg args 1])

end Script

end Rivulet
