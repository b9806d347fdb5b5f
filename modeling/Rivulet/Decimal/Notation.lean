import Rivulet.Decimal.Shortest

/-!
# How decimals are written and read

The text of a double: its shortest digits, positional between 0.00001 and 10^16 and with an
exponent outside, always marked as a fraction by a point or an exponent. Reading keeps as
many digits as fit in 64 bits and multiplies by a power of ten, as the grammar of numbers
promises no more than that.
-/

namespace Rivulet.Decimal

/-- The choices of a number format. -/
structure Style where
  /-- The smallest power of ten of a first digit written positionally. -/
  least : Int
  /-- The first power of ten of a first digit that needs an exponent. -/
  bound : Int
  /-- What stands before a positive exponent. -/
  plus : List Char

/-- Positional from 10^-5 up to 10^16; exponents carry their sign. -/
def standard : Style := ⟨-5, 16, ['+']⟩

/-- The digits of a number without the zeros at its end, and how many were dropped. -/
def withoutZeros (digits : List Char) : List Char × Nat :=
  let kept := (digits.reverse.dropWhile (· == '0')).reverse
  (kept, digits.length - kept.length)

/-- Writes a decimal in the given style. -/
def Style.write (style : Style) (d : Scaled) : List Char :=
  let (digits, dropped) := withoutZeros (Nat.toDigits 10 d.digits)
  let first : Int := d.exponent + dropped + digits.length - 1
  if first < style.least ∨ style.bound ≤ first then
    let exponent := if first < 0 then '-' :: Nat.toDigits 10 (-first).toNat
      else style.plus ++ Nat.toDigits 10 first.toNat
    match digits with
    | [] => ['0', '.', '0']
    | [c] => c :: 'e' :: exponent
    | c :: rest => c :: '.' :: rest ++ 'e' :: exponent
  else if first < 0 then
    '0' :: '.' :: List.replicate ((-first).toNat - 1) '0' ++ digits
  else
    let whole := first.toNat + 1
    if digits.length ≤ whole then
      digits ++ List.replicate (whole - digits.length) '0' ++ ['.', '0']
    else digits.take whole ++ '.' :: digits.drop whole

/-- The text of a finite double; anything else has none. -/
def ofFloat? (x : Float) : Option (List Char) :=
  let bits := x.toBits
  let sign := if bits.toNat / 0x8000000000000000 = 1 then ['-'] else []
  (Binary.ofBits bits).map fun b =>
    sign ++ (if b.mantissa = 0 then ['0', '.', '0'] else standard.write b.shortest)

/-- The value of a digit. -/
def digitValue (c : Char) : Nat := c.toNat - '0'.toNat

/-- The digits of a number that fit in 64 bits, and how many powers of ten they lack. Digits
that follow the first one that does not fit are left out. -/
structure Significand where
  /-- The number made of the digits kept. -/
  value : Nat
  /-- The power of ten to multiply by. -/
  exponent : Int

/-- Appends a digit if the result fits in 64 bits. -/
def Significand.push? (s : Significand) (c : Char) : Option Nat :=
  let next := s.value * 10 + digitValue c
  if next < 0x10000000000000000 then some next else none

/-- Takes in the digits before the point. -/
def Significand.whole : List Char → Significand → Significand
  | [], s => s
  | c :: cs, s =>
    match s.push? c with
    | some n => whole cs { s with value := n }
    | none => { s with exponent := s.exponent + (cs.length + 1) }

/-- Takes in the digits behind the point. -/
def Significand.fraction : List Char → Significand → Significand
  | [], s => s
  | c :: cs, s =>
    match s.push? c with
    | some n => fraction cs ⟨n, s.exponent - 1⟩
    | none => s

/-- The powers of ten that a double holds. -/
def powerOfTen (n : Nat) : Float := Float.ofScientific 1 false n

/-- The significand times its power of ten, in steps a double can hold; `none` when the
result is too large. -/
def Significand.toFloat? (s : Significand) : Option Float :=
  let x := s.value.toUInt64.toFloat
  if 0 ≤ s.exponent then
    if s.value = 0 then some x
    else if 308 < s.exponent then none
    else
      let y := x * powerOfTen s.exponent.toNat
      if y.isInf then none else some y
  else some (shrink 4 (-s.exponent).toNat x)
where
  /-- Divides by a power of ten, at most 308 decades at a time. -/
  shrink : Nat → Nat → Float → Float
  | 0, _, x => x
  | n + 1, decades, x =>
    if decades ≤ 308 then x / powerOfTen decades
    else if x == 0 then x
    else shrink n (decades - 308) (x / powerOfTen 308)

end Rivulet.Decimal
