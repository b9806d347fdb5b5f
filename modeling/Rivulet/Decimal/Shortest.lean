/-!
# The shortest decimal of a binary fraction

A double is a mantissa times a power of two, and it stands for every real number that is
nearer to it than to its neighbours. Its shortest decimal has the fewest digits among the
decimals in that interval, and is the one nearest to the double among those.
-/

namespace Rivulet.Decimal

/-- A positive double, as `mantissa * 2 ^ exponent`. -/
structure Binary where
  /-- The significant bits, below two to the 53. -/
  mantissa : Nat
  /-- The power of two that the significant bits are multiplied by. -/
  exponent : Int
  deriving DecidableEq, Repr

/-- A decimal, as `digits * 10 ^ exponent`. -/
structure Scaled where
  /-- The digits as one number. -/
  digits : Nat
  /-- The power of ten that the digits are multiplied by. -/
  exponent : Int
  deriving DecidableEq, Repr

/-- The magnitude in the bits of a double, unless it is infinite or no number. -/
def Binary.ofBits (bits : UInt64) : Option Binary :=
  let n := bits.toNat
  let fraction : Nat := n % 0x10000000000000
  let field : Nat := n / 0x10000000000000 % 0x800
  if field = 0x800 - 1 then none
  else if field = 0 then some ⟨fraction, -1074⟩
  else some ⟨0x10000000000000 + fraction, (field : Int) - 1075⟩

/-- A fraction of two natural numbers. -/
structure Fraction where
  /-- What is divided. -/
  num : Nat
  /-- What it is divided by. -/
  den : Nat
  deriving DecidableEq, Repr

/-- The fraction `n * 2 ^ e`. -/
def Fraction.binary (n : Nat) (e : Int) : Fraction := ⟨n * Nat.pow 2 e.toNat, Nat.pow 2 (-e).toNat⟩

/-- The fraction `n * 10 ^ e`. -/
def Fraction.decimal (n : Nat) (e : Int) : Fraction :=
    ⟨n * Nat.pow 10 e.toNat, Nat.pow 10 (-e).toNat⟩

/-- Whether one fraction lies below another. -/
def Fraction.lt (a b : Fraction) : Bool := a.num * b.den < b.num * a.den

/-- Whether a fraction lies between two others, with the ends where `closed`. -/
def Fraction.within (a low high : Fraction) (closed : Bool) : Bool :=
  if closed then !a.lt low && !high.lt a else low.lt a && a.lt high

/-- The lower end of what rounds to a double, in quarters of its last bit: below a power of
two the neighbour is only half as far away. -/
def Binary.low (b : Binary) : Fraction :=
  if b.mantissa = 0x10000000000000 ∧ b.exponent ≠ -1074 then .binary (4 * b.mantissa - 1)
    (b.exponent - 2)
  else .binary (4 * b.mantissa - 2) (b.exponent - 2)

/-- The upper end of what rounds to a double. -/
def Binary.high (b : Binary) : Fraction := .binary (4 * b.mantissa + 2) (b.exponent - 2)

/-- The value of a double as a fraction. -/
def Binary.value (b : Binary) : Fraction := .binary b.mantissa b.exponent

/-- Whether a decimal reads back as the double; the ends belong to the even mantissa. -/
def Binary.covers (b : Binary) (d : Scaled) : Bool :=
  (Fraction.decimal d.digits d.exponent).within b.low b.high (b.mantissa % 2 == 0)

/-- The power of ten of the first digit of a positive fraction. -/
def Fraction.magnitude (a : Fraction) : Int :=
  if a.den ≤ a.num then (Nat.toDigits 10 (a.num / a.den)).length - 1
  else
    match (List.range 400).find? fun j => a.den ≤ a.num * Nat.pow 10 (j + 1) with
    | some j => -(j + 1 : Int)
    | none => 0

/-- The two decimals on the grid of `10 ^ k` around a fraction, nearer one first; a tie goes
to the even digit. -/
def Fraction.neighbours (a : Fraction) (k : Int) : Scaled × Scaled :=
  let num := a.num * Nat.pow 10 (-k).toNat
  let den := a.den * Nat.pow 10 k.toNat
  let down := num / den
  let rest := num % den
  let below : Scaled := ⟨down, k⟩
  let above : Scaled := ⟨down + 1, k⟩
  if 2 * rest < den ∨ (2 * rest = den ∧ down % 2 = 0) then (below, above) else (above, below)

/-- The decimal with the given number of digits that reads back as the double, if any. -/
def Binary.onGrid (b : Binary) (count : Nat) : Option Scaled :=
  let (near, far) := b.value.neighbours (b.value.magnitude - count + 1)
  if b.covers near then some near else if b.covers far then some far else none

/-- The decimal of fewest digits that reads back as the double; seventeen always suffice. -/
def Binary.shortest (b : Binary) : Scaled :=
  ((List.range 17).findSome? fun n => b.onGrid (n + 1)).getD ⟨0, 0⟩

end Rivulet.Decimal
