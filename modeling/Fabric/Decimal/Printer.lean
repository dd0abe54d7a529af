import Fabric.Binary64.Arithmetic

/-!
The decimal texts of numbers: the fewest digits that read back as a given number, and of those the nearest
to it, a tie to the larger one, written without an exponent; and a fixed count of decimal places, the
nearest such number, a tie to the even digit.
-/

namespace Fabric.Decimal

structure Scientific where
  digits : Nat
  power : Int
deriving DecidableEq, Repr

/-- The numbers around a value that are read as it: with `unit = 2 ^ (exponent - 2)`, the
value is `4 * mantissa` units, and the ends are included if the mantissa is even. -/
structure Neighbourhood where
  low : Nat
  value : Nat
  high : Nat
  closed : Bool

def neighbourhood (d : Dyadic) : Neighbourhood :=
  let below := if d.mantissa = twoPow 52 ∧ Binary64.minExponent < d.exponent then 1 else 2
  { low := 4 * d.mantissa - below
    value := 4 * d.mantissa
    high := 4 * d.mantissa + 2
    closed := d.mantissa % 2 = 0 }

def Neighbourhood.holds (b : Neighbourhood) (n den : Nat) : Bool :=
  if b.closed then b.low * den ≤ n && n ≤ b.high * den
  else b.low * den < n && n < b.high * den

/-- The grid of the multiples of `10 ^ power`, counted in units of `2 ^ unit`: one step of it is
`num / den` units. -/
def gridStep (power unit : Int) : Nat × Nat :=
  let num := (if 0 ≤ power then tenPow power.toNat else 1)
    * (if unit ≤ 0 then twoPow (-unit).toNat else 1)
  let den := (if 0 ≤ power then 1 else tenPow (-power).toNat)
    * (if unit ≤ 0 then 1 else twoPow unit.toNat)
  (num, den)

/-- The multiple of `10 ^ power` next to the value that reads back as it, if there is one. -/
def onGrid (b : Neighbourhood) (unit power : Int) : Option Nat :=
  let (num, den) := gridStep power unit
  let below := b.value * den / num
  let fitsBelow := b.holds (below * num) den
  let fitsAbove := b.holds ((below + 1) * num) den
  match fitsBelow, fitsAbove with
  | true, true =>
    let gapBelow := b.value * den - below * num
    let gapAbove := (below + 1) * num - b.value * den
    some (if gapBelow < gapAbove then below else below + 1)
  | true, false => some below
  | false, true => some (below + 1)
  | false, false => none

/-- The first power, of `count` powers from `power` downwards, whose grid holds a number that
reads back. -/
def searchGrids (b : Neighbourhood) (unit : Int) : Nat → Int → Scientific
  | 0, power => ⟨0, power⟩
  | count + 1, power =>
    match onGrid b unit power with
    | some digits => ⟨digits, power⟩
    | none => searchGrids b unit count (power - 1)

/-- An upper bound for the power of ten of the leading digit, at most two too large. -/
def leadingPower (d : Dyadic) : Int :=
  ((d.mantissa.log2 : Int) + d.exponent) * 30103 / 100000 + 1

/-- The shortest decimal number that reads back as a positive value. -/
def shortest (d : Dyadic) : Scientific :=
  searchGrids (neighbourhood d) (d.exponent - 2) 25 (leadingPower d)

def zeros (n : Nat) : String :=
  String.ofList (List.replicate n '0')

def Scientific.positional (s : Scientific) : String :=
  let text := toString s.digits
  if 0 ≤ s.power then text ++ zeros s.power.toNat
  else
    let places := (-s.power).toNat
    if places < text.length then
      let cut := text.length - places
      String.ofList (text.toList.take cut) ++ "." ++ String.ofList (text.toList.drop cut)
    else "0." ++ zeros (places - text.length) ++ text

/-- The text of a number: the fewest digits that read back, positional at every size, without a
point in an integer. -/
def write (x : Binary64) : String :=
  let sign := if x.isNegative then "-" else ""
  if x.isNaN then "NaN"
  else if x.isInfinite then sign ++ "inf"
  else
    let d := x.dyadic
    if d.mantissa = 0 then sign ++ "0" else sign ++ (shortest d).positional

/-- The absolute value in units of the last of `places` decimal places. -/
def inUnits (d : Dyadic) (places : Nat) : Nat :=
  roundDiv (d.num * tenPow places) d.den

/-- The text of a finite number with the given count of decimal places. -/
def fixed (places : Nat) (x : Binary64) : String :=
  let units := inUnits x.dyadic places
  let sign := if x.isNegative then "-" else ""
  if places = 0 then sign ++ toString units
  else
    let fraction := toString (units % tenPow places)
    sign ++ toString (units / tenPow places) ++ "." ++ zeros (places - fraction.length) ++ fraction

end Fabric.Decimal
