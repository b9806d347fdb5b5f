/-!
# The MessagePack format

Values as the format distinguishes them, their shortest byte form, and the reading of any
byte form. A reader takes one value from the front and says what is left.
-/

namespace Rivulet.MessagePack

/-- A value of the format. -/
inductive Packed where
  /-- The absent value. -/
  | nil
  /-- A truth value. -/
  | bool (b : Bool)
  /-- A whole number in an unsigned form. -/
  | unsigned (n : Nat)
  /-- A whole number in a signed form. -/
  | signed (n : Int)
  /-- A floating point number. -/
  | float (x : Float)
  /-- The bytes of a text. -/
  | text (bytes : List UInt8)
  /-- Other bytes. -/
  | binary (bytes : List UInt8)
  /-- Bytes with an application type. -/
  | extended (bytes : List UInt8)
  /-- A list. -/
  | array (items : List Packed)
  /-- A list of pairs. -/
  | map (pairs : List (Packed × Packed))
  deriving Inhabited

/-- The last `count` bytes of a number, most significant first. -/
def bigEndian : Nat → Nat → List UInt8
  | 0, _ => []
  | count + 1, n => bigEndian count (n / 256) ++ [(n % 256).toUInt8]

/-- The number whose bytes these are, most significant first. -/
def ofBigEndian (bytes : List UInt8) : Nat := bytes.foldl (fun n b => n * 256 + b.toNat) 0

/-- A number as two's complement of the given count of bytes. -/
def twosComplement (count : Nat) (n : Int) : Nat := (n % (Nat.pow 2 (8 * count) : Nat)).toNat

/-- The signed reading of a two's complement. -/
def ofTwosComplement (bytes : List UInt8) : Int :=
  let n := ofBigEndian bytes
  let bound := Nat.pow 2 (8 * bytes.length)
  if 2 * n < bound then n else (n : Int) - bound

/-- The shortest unsigned form. -/
def writeUnsigned (n : Nat) : List UInt8 :=
  if n < 0x80 then [n.toUInt8]
  else if n < 0x100 then 0xcc :: bigEndian 1 n
  else if n < 0x10000 then 0xcd :: bigEndian 2 n
  else if n < 0x100000000 then 0xce :: bigEndian 4 n
  else 0xcf :: bigEndian 8 n

/-- The shortest signed form of a negative number. -/
def writeNegative (n : Int) : List UInt8 :=
  if -0x20 ≤ n then bigEndian 1 (twosComplement 1 n)
  else if -0x80 ≤ n then 0xd0 :: bigEndian 1 (twosComplement 1 n)
  else if -0x8000 ≤ n then 0xd1 :: bigEndian 2 (twosComplement 2 n)
  else if -0x80000000 ≤ n then 0xd2 :: bigEndian 4 (twosComplement 4 n)
  else 0xd3 :: bigEndian 8 (twosComplement 8 n)

/-- The shortest form of a whole number: unsigned from zero on. -/
def writeInt (n : Int) : List UInt8 :=
  if 0 ≤ n then writeUnsigned n.toNat else writeNegative n

/-- The head of a text of the given length. -/
def textHead (n : Nat) : List UInt8 :=
  if n < 0x20 then [(0xa0 + n).toUInt8]
  else if n < 0x100 then 0xd9 :: bigEndian 1 n
  else if n < 0x10000 then 0xda :: bigEndian 2 n
  else 0xdb :: bigEndian 4 n

/-- The head of a run of bytes of the given length. -/
def binaryHead (n : Nat) : List UInt8 :=
  if n < 0x100 then 0xc4 :: bigEndian 1 n
  else if n < 0x10000 then 0xc5 :: bigEndian 2 n
  else 0xc6 :: bigEndian 4 n

/-- The head of a list of the given length. -/
def arrayHead (n : Nat) : List UInt8 :=
  if n < 0x10 then [(0x90 + n).toUInt8]
  else if n < 0x10000 then 0xdc :: bigEndian 2 n
  else 0xdd :: bigEndian 4 n

/-- The head of a list of pairs of the given length. -/
def mapHead (n : Nat) : List UInt8 :=
  if n < 0x10 then [(0x80 + n).toUInt8]
  else if n < 0x10000 then 0xde :: bigEndian 2 n
  else 0xdf :: bigEndian 4 n

mutual

/-- The shortest byte form of a value; floating point numbers always take eight bytes. -/
def Packed.write : Packed → List UInt8
  | nil => [0xc0]
  | bool b => [if b then 0xc3 else 0xc2]
  | unsigned n => writeUnsigned n
  | signed n => writeInt n
  | float x => 0xcb :: bigEndian 8 x.toBits.toNat
  | text bytes => textHead bytes.length ++ bytes
  | binary bytes => binaryHead bytes.length ++ bytes
  | extended bytes => 0xc9 :: bigEndian 4 (bytes.length - 1) ++ bytes
  | array items => arrayHead items.length ++ Packed.writeItems items
  | map pairs => mapHead pairs.length ++ Packed.writePairs pairs

/-- The byte forms of several values in a row. -/
def Packed.writeItems : List Packed → List UInt8
  | [] => []
  | v :: vs => v.write ++ Packed.writeItems vs

/-- The byte forms of several pairs in a row. -/
def Packed.writePairs : List (Packed × Packed) → List UInt8
  | [] => []
  | (k, v) :: vs => k.write ++ v.write ++ Packed.writePairs vs

end

/-- Takes a fixed number of bytes off the front. -/
def takeBytes (n : Nat) (s : List UInt8) : Option (List UInt8 × List UInt8) :=
  let front := s.take n
  if front.length = n then some (front, s.drop n) else none

/-- Takes a number of so many bytes off the front. -/
def takeNat (n : Nat) (s : List UInt8) : Option (Nat × List UInt8) :=
  (takeBytes n s).map fun (front, s) => (ofBigEndian front, s)

/-- A run of bytes whose length is written in front of it in `width` bytes, with `extra`
bytes more than written. -/
def takeRun (width extra : Nat) (s : List UInt8) : Option (List UInt8 × List UInt8) := do
  let (n, s) ← takeNat width s
  takeBytes (n + extra) s

/-- What the first byte of a value announces. -/
inductive Head where
  /-- A value without parts, given by what it is and what follows it. -/
  | plain (v : Packed) (rest : List UInt8)
  /-- A list of so many items. -/
  | array (count : Nat) (rest : List UInt8)
  /-- A list of so many pairs. -/
  | map (count : Nat) (rest : List UInt8)

/-- A value without parts, if it can be read. -/
def Head.ofPlain (v : Option (Packed × List UInt8)) : Option Head :=
  v.map fun (v, s) => .plain v s

/-- Reads the first byte and, for values without parts, the bytes of the value. -/
def readHead (s : List UInt8) : Option Head :=
  match s with
  | [] => none
  | b :: s =>
    let n := b.toNat
    let run (make : List UInt8 → Packed) (v : Option (List UInt8 × List UInt8)) : Option Head :=
      Head.ofPlain (v.map fun (bytes, s) => (make bytes, s))
    if n < 0x80 then some (.plain (.unsigned n) s)
    else if n < 0x90 then some (.map (n - 0x80) s)
    else if n < 0xa0 then some (.array (n - 0x90) s)
    else if n < 0xc0 then run .text (takeBytes (n - 0xa0) s)
    else if 0xe0 ≤ n then some (.plain (.signed ((n : Int) - 256)) s)
    else match n with
      | 0xc0 => some (.plain .nil s)
      | 0xc2 => some (.plain (.bool false) s)
      | 0xc3 => some (.plain (.bool true) s)
      | 0xc4 => run .binary (takeRun 1 0 s)
      | 0xc5 => run .binary (takeRun 2 0 s)
      | 0xc6 => run .binary (takeRun 4 0 s)
      | 0xc7 => run .extended (takeRun 1 1 s)
      | 0xc8 => run .extended (takeRun 2 1 s)
      | 0xc9 => run .extended (takeRun 4 1 s)
      | 0xca => Head.ofPlain ((takeNat 4 s).map fun (n, s) =>
          (.float (Float32.ofBits n.toUInt32).toFloat, s))
      | 0xcb => Head.ofPlain ((takeNat 8 s).map fun (n, s) => (.float (Float.ofBits n.toUInt64), s))
      | 0xcc => Head.ofPlain ((takeNat 1 s).map fun (n, s) => (.unsigned n, s))
      | 0xcd => Head.ofPlain ((takeNat 2 s).map fun (n, s) => (.unsigned n, s))
      | 0xce => Head.ofPlain ((takeNat 4 s).map fun (n, s) => (.unsigned n, s))
      | 0xcf => Head.ofPlain ((takeNat 8 s).map fun (n, s) => (.unsigned n, s))
      | 0xd0 => run (.signed ∘ ofTwosComplement) (takeBytes 1 s)
      | 0xd1 => run (.signed ∘ ofTwosComplement) (takeBytes 2 s)
      | 0xd2 => run (.signed ∘ ofTwosComplement) (takeBytes 4 s)
      | 0xd3 => run (.signed ∘ ofTwosComplement) (takeBytes 8 s)
      | 0xd4 => run .extended (takeBytes 2 s)
      | 0xd5 => run .extended (takeBytes 3 s)
      | 0xd6 => run .extended (takeBytes 5 s)
      | 0xd7 => run .extended (takeBytes 9 s)
      | 0xd8 => run .extended (takeBytes 17 s)
      | 0xd9 => run .text (takeRun 1 0 s)
      | 0xda => run .text (takeRun 2 0 s)
      | 0xdb => run .text (takeRun 4 0 s)
      | 0xdc => (takeNat 2 s).map fun (n, s) => .array n s
      | 0xdd => (takeNat 4 s).map fun (n, s) => .array n s
      | 0xde => (takeNat 2 s).map fun (n, s) => .map n s
      | 0xdf => (takeNat 4 s).map fun (n, s) => .map n s
      | _ => none

mutual

/-- Reads one value, its parts nested no deeper than `depth`. Bytes with an application type
count as a part of a value of that type. -/
def readValue : Nat → Nat → List UInt8 → Option (Packed × List UInt8)
  | 0, _, _ => none
  | fuel + 1, depth, s =>
    match readHead s, depth with
    | none, _ => none
    | some (.plain (.extended _) _), 0 => none
    | some (.plain v s), _ => some (v, s)
    | some (.array _ _), 0 => none
    | some (.map _ _), 0 => none
    | some (.array n s), depth + 1 =>
      (readItems fuel depth n s).map fun (items, s) => (.array items, s)
    | some (.map n s), depth + 1 =>
      (readPairs fuel depth n s).map fun (pairs, s) => (.map pairs, s)

/-- Reads so many values in a row. -/
def readItems : Nat → Nat → Nat → List UInt8 → Option (List Packed × List UInt8)
  | _, _, 0, s => some ([], s)
  | 0, _, _ + 1, _ => none
  | fuel + 1, depth, n + 1, s =>
    match readValue fuel depth s with
    | none => none
    | some (v, s) => (readItems fuel depth n s).map fun (vs, s) => (v :: vs, s)

/-- Reads so many pairs in a row. -/
def readPairs : Nat → Nat → Nat → List UInt8 → Option (List (Packed × Packed) × List UInt8)
  | _, _, 0, s => some ([], s)
  | 0, _, _ + 1, _ => none
  | fuel + 1, depth, n + 1, s =>
    match readValue fuel depth s with
    | none => none
    | some (k, s) =>
      match readValue fuel depth s with
      | none => none
      | some (v, s) => (readPairs fuel depth n s).map fun (vs, s) => ((k, v) :: vs, s)

end

/-- How deep lists may be nested. -/
def maxDepth : Nat := 1023

/-- Reads the value at the front of a text of bytes; what follows it is left alone. Each
step into a value takes a byte, so twice the length bounds the steps. -/
def Packed.read? (s : List UInt8) : Option Packed :=
  (readValue (2 * s.length + 2) maxDepth s).map Prod.fst

end Rivulet.MessagePack
