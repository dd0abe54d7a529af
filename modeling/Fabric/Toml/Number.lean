import Fabric.Decimal.Reader
import Fabric.Json.Basic
import Fabric.Power
import Fabric.Text.Hex

/-!
Numbers of configuration documents: integers of 64 bits in four bases, and numbers with a fraction
or an exponent. Single underscores may stand between digits.
-/

namespace Fabric.Toml

/-- Digits of a base, single underscores between them allowed. -/
def digits (isDigit : Char → Bool) : List Char → List Char × List Char
  | '_' :: c :: cs =>
    if isDigit c then
      let (ds, rest) := digits isDigit cs
      (c :: ds, rest)
    else ([], '_' :: c :: cs)
  | c :: cs =>
    if isDigit c then
      let (ds, rest) := digits isDigit cs
      (c :: ds, rest)
    else ([], c :: cs)
  | [] => ([], [])

def numberOf (base : Nat) (cs : List Char) : Nat :=
  cs.foldl (fun n c => base * n + (Text.hexValue c).getD 0) 0

/-- Digits of a base, at least one, and the first no underscore. -/
def natural (base : Nat) (isDigit : Char → Bool) : List Char → Option (Nat × List Char)
  | [] => none
  | c :: cs =>
    if isDigit c then
      let (ds, rest) := digits isDigit cs
      some (numberOf base (c :: ds), rest)
    else none

def decimal : List Char → Option (Nat × List Char)
  | '0' :: cs => some (0, cs)
  | cs => natural 10 Char.isDigit cs

def isOctal (c : Char) : Bool :=
  '0' ≤ c && c ≤ '7'

def isBinary (c : Char) : Bool :=
  c = '0' || c = '1'

def isHex (c : Char) : Bool :=
  (Text.hexValue c).isSome

def integer (cs : List Char) : Option (Json × List Char) := do
  let (n, rest) ←
    match cs with
    | '0' :: 'x' :: cs => (natural 16 isHex cs).map fun (n, r) => ((n : Int), r)
    | '0' :: 'o' :: cs => (natural 8 isOctal cs).map fun (n, r) => ((n : Int), r)
    | '0' :: 'b' :: cs => (natural 2 isBinary cs).map fun (n, r) => ((n : Int), r)
    | '+' :: cs => (decimal cs).map fun (n, r) => ((n : Int), r)
    | '-' :: cs => (decimal cs).map fun (n, r) => (-(n : Int), r)
    | cs => (decimal cs).map fun (n, r) => ((n : Int), r)
  if -(twoPow 63 : Int) ≤ n ∧ n < twoPow 63 then some (.int n, rest) else none

/-- Digits with single underscores between them, as they are written without the underscores. -/
def someDigits : List Char → Option (List Char × List Char)
  | [] => none
  | c :: cs =>
    if c.isDigit then
      let (ds, rest) := digits Char.isDigit cs
      some (c :: ds, rest)
    else none

def sign : List Char → List Char × List Char
  | '+' :: cs => (['+'], cs)
  | '-' :: cs => (['-'], cs)
  | cs => ([], cs)

/-- The digits before the point: no zero precedes others. -/
def wholePart : List Char → Option (List Char × List Char)
  | '0' :: cs => some (['0'], cs)
  | cs => someDigits cs

def fractionPart : List Char → Option (List Char × List Char)
  | '.' :: cs => (someDigits cs).map fun (ds, rest) => ('.' :: ds, rest)
  | _ => none

def exponentPart : List Char → Option (List Char × List Char)
  | c :: cs =>
    if c = 'e' ∨ c = 'E' then do
      let (s, cs) := sign cs
      let (ds, rest) ← someDigits cs
      return ('e' :: (s ++ ds), rest)
    else none
  | [] => none

/-- What makes a number a fraction: digits after a point, an exponent, or both. -/
def fractionOrExponent (cs : List Char) : Option (List Char × List Char) :=
  match fractionPart cs with
  | some (fraction, rest) =>
    match exponentPart rest with
    | some (exponent, rest) => some (fraction ++ exponent, rest)
    | none => some (fraction, rest)
  | none => exponentPart cs

def numberWord : List Char → Option (List Char × List Char)
  | 'i' :: 'n' :: 'f' :: rest => some (['i', 'n', 'f'], rest)
  | 'n' :: 'a' :: 'n' :: rest => some (['n', 'a', 'n'], rest)
  | _ => none

def overflows (text : String) : Bool :=
  match Decimal.read text with
  | some x => x.isInfinite && !x.isNegative
  | none => true

/-- A number with a fraction or an exponent. One that is written with digits is not beyond the
largest. -/
def fraction (cs : List Char) : Option (Json × List Char) := do
  let (s, cs) := sign cs
  match numberWord cs with
  | some (word, rest) => return (.real (String.ofList (s ++ word)), rest)
  | none =>
    let (whole, rest) ← wholePart cs
    let (part, rest) ← fractionOrExponent rest
    let text := String.ofList (s ++ whole ++ part)
    if overflows text then none else return (.real text, rest)

end Fabric.Toml
