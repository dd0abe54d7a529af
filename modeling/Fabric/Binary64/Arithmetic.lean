import Fabric.Binary64.Basic

/-!
The values of finite numbers, the numbers nearest to values, and arithmetic. The absolute value of a
finite number is `mantissa * 2 ^ exponent`; a quotient of natural numbers is rounded to the nearest such
number, a tie to the one with the even mantissa. An operation gives the exact result, rounded to the
nearest number. An operand that is a NaN is the result, the first one if both are.
-/

namespace Fabric

structure Dyadic where
  mantissa : Nat
  exponent : Int
deriving DecidableEq, Repr

namespace Dyadic

/-- The numerator of the value as a quotient of natural numbers. -/
def num (d : Dyadic) : Nat :=
  d.mantissa * twoPow d.exponent.toNat

/-- The denominator of the value as a quotient of natural numbers. -/
def den (d : Dyadic) : Nat :=
  twoPow (-d.exponent).toNat

end Dyadic

/-- `num / den` rounded to an integer, a tie to the even one. -/
def roundDiv (num den : Nat) : Nat :=
  let q := num / den
  let r := num % den
  if 2 * r < den then q
  else if den < 2 * r then q + 1
  else q + q % 2

namespace Binary64

/-- The least exponent of a finite number, that of the subnormal ones. -/
def minExponent : Int := -1074

def dyadic (x : Binary64) : Dyadic :=
  let fraction := x.magnitude % twoPow 52
  let biased := x.magnitude / twoPow 52
  if biased = 0 then ⟨fraction, minExponent⟩
  else ⟨twoPow 52 + fraction, minExponent + (biased - 1 : Nat)⟩

/-- The number with the given absolute value, if it is below `2 ^ 53` units of an exponent that a
finite number may have; carries into the exponent and beyond the largest finite number. -/
def ofUnits (mantissa : Nat) (exponent : Int) : Binary64 :=
  let biased := (exponent - minExponent).toNat
  let magnitude :=
    if mantissa < twoPow 52 then mantissa
    else (biased + 1) * twoPow 52 + (mantissa - twoPow 52)
  ofParts false (min magnitude infinite)

/-- The number nearest to `num / den`, a tie to the one with the even mantissa. -/
def ofRatio (num den : Nat) : Binary64 :=
  if num = 0 ∨ den = 0 then ofParts false 0
  else
    -- the quotient has 53 or 54 bits at this exponent, or 52 or 53 at the next one
    let estimate : Int := (num.log2 : Int) - (den.log2 : Int) - 53
    let at53 (e : Int) : Bool :=
      if 0 ≤ e then num < twoPow 53 * (den * twoPow e.toNat)
      else num * twoPow (-e).toNat < twoPow 53 * den
    let exact := if at53 estimate then estimate else estimate + 1
    let e := if at53 exact then exact else exact + 1
    let e := max e minExponent
    let mantissa :=
      if 0 ≤ e then roundDiv num (den * twoPow e.toNat)
      else roundDiv (num * twoPow (-e).toNat) den
    if mantissa = twoPow 53 then ofUnits (twoPow 52) (e + 1) else ofUnits mantissa e

def ofNat (n : Nat) : Binary64 :=
  ofRatio n 1

instance (n : Nat) : OfNat Binary64 n := ⟨ofNat n⟩

/-- The number nearest to `digits * 10 ^ power`. Powers outside the range of finite numbers give
zero or infinity at once. -/
def ofDecimal (digits : Nat) (power : Int) : Binary64 :=
  if digits = 0 then 0
  else
    let magnitude : Int := power + (digits.log2 / 3 + 1 : Nat)
    if power + (digits.log2 * 3 / 10 : Nat) > 400 then infinity
    else if magnitude < -400 then 0
    else if 0 ≤ power then ofRatio (digits * tenPow power.toNat) 1
    else ofRatio digits (tenPow (-power).toNat)

/-- The result of an operation whose operands may be NaNs. -/
def ofOperands (x y : Binary64) (result : Binary64) : Binary64 :=
  if x.isNaN then x.quiet else if y.isNaN then y.quiet else result

/-- The number nearest to a value with a sign, which zero keeps. -/
def ofSigned (negative : Bool) (num den : Nat) : Binary64 :=
  ofParts negative (ofRatio num den).magnitude

/-- The sum of two finite numbers. Opposite numbers give the zero without a sign. -/
def addFinite (x y : Binary64) : Binary64 :=
  let signed (z : Binary64) (n : Nat) : Int := if z.isNegative then -(n : Int) else n
  let (a, b) := (x.dyadic, y.dyadic)
  let sum := signed x (a.num * b.den) + signed y (b.num * a.den)
  let negative := if sum = 0 then x.isNegative && y.isNegative else decide (sum < 0)
  ofSigned negative sum.natAbs (a.den * b.den)

def add (x y : Binary64) : Binary64 :=
  ofOperands x y <|
    if x.isInfinite then
      if y.isInfinite && x.isNegative != y.isNegative then invalid else x
    else if y.isInfinite then y
    else addFinite x y

def mul (x y : Binary64) : Binary64 :=
  let negative := x.isNegative != y.isNegative
  ofOperands x y <|
    if x.isInfinite || y.isInfinite then
      if x.isZero || y.isZero then invalid else ofParts negative infinite
    else
      let (a, b) := (x.dyadic, y.dyadic)
      ofSigned negative (a.num * b.num) (a.den * b.den)

def div (x y : Binary64) : Binary64 :=
  let negative := x.isNegative != y.isNegative
  ofOperands x y <|
    if x.isInfinite then
      if y.isInfinite then invalid else ofParts negative infinite
    else if y.isInfinite then ofParts negative 0
    else if y.isZero then
      if x.isZero then invalid else ofParts negative infinite
    else
      let (a, b) := (x.dyadic, y.dyadic)
      ofSigned negative (a.num * b.den) (a.den * b.num)

instance : Add Binary64 := ⟨add⟩

instance : Mul Binary64 := ⟨mul⟩

instance : Div Binary64 := ⟨div⟩

/-- The least natural number that is not below a number that is not negative, up to a limit. -/
def ceilWithin (limit : Nat) (x : Binary64) : Nat :=
  if x.isFinite then min limit ((x.dyadic.num + (x.dyadic.den - 1)) / x.dyadic.den) else limit

/-- The natural number nearest to a number that is not negative, a tie to the larger one, up to a
limit. -/
def roundWithin (limit : Nat) (x : Binary64) : Nat :=
  if x.isFinite then min limit ((2 * x.dyadic.num + x.dyadic.den) / (2 * x.dyadic.den)) else limit

end Binary64

end Fabric
