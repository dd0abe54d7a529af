import Fabric.Binary64.Arithmetic

/-!
Reading numbers: an optional sign, then digits with at most one point among them and an optional
exponent, or one of the words for infinity and for the value that is no number. The value is the
nearest number.
-/

namespace Fabric.Decimal

def digitValue (c : Char) : Nat :=
  c.toNat - '0'.toNat

def natOfDigits (cs : List Char) : Nat :=
  cs.foldl (fun n c => 10 * n + digitValue c) 0

/-- An optional sign and what follows it; `true` for a minus sign. -/
def readSign : List Char → Bool × List Char
  | '-' :: cs => (true, cs)
  | '+' :: cs => (false, cs)
  | cs => (false, cs)

/-- The exponent part of a number, which is empty or an `e`, an optional sign and digits. -/
def readExponent : List Char → Option Int
  | [] => some 0
  | c :: cs =>
    if c = 'e' ∨ c = 'E' then
      let (negative, digits) := readSign cs
      if digits.isEmpty ∨ ¬ digits.all Char.isDigit then none
      else
        let n : Int := natOfDigits digits
        some (if negative then -n else n)
    else none

/-- Digits with at most one point among them, at least one digit, and an exponent. -/
def readUnsigned (cs : List Char) : Option Binary64 :=
  let whole := cs.takeWhile Char.isDigit
  let rest := cs.dropWhile Char.isDigit
  let (fraction, rest) :=
    match rest with
    | '.' :: more => (more.takeWhile Char.isDigit, more.dropWhile Char.isDigit)
    | _ => ([], rest)
  if whole.isEmpty ∧ fraction.isEmpty then none
  else
    (readExponent rest).map fun exponent =>
      .ofDecimal (natOfDigits (whole ++ fraction)) (exponent - fraction.length)

/-- The words that stand for numbers without digits, in any case. -/
def readWord (cs : List Char) : Option Binary64 :=
  let word := String.ofList (cs.map Char.toLower)
  if word = "inf" ∨ word = "infinity" then some .infinity
  else if word = "nan" then some .nan
  else none

def read (s : String) : Option Binary64 :=
  let (negative, cs) := readSign s.toList
  ((readWord cs).orElse fun _ => readUnsigned cs).map fun x => if negative then -x else x

end Fabric.Decimal
