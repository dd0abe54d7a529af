import Fabric.Power
import Fabric.Syntax.Expr

/-!
Arithmetic on literals. Operands stand for numbers, the operation is done on numbers, and the result
is reduced to the width of its type. A literal is normalised if its word is the reduced one. Numbers are
kept in words of 128 bits, so a shift by more bits fails.
-/

namespace Fabric

/-- How an operation on machine words fails: its result is too large, it shifts out of the word, or it
goes below zero. -/
inductive Fault
  | overflow
  | shift
  | underflow
deriving DecidableEq, Repr

def Fault.message : Fault → String
  | .overflow => "result too large for a word"
  | .shift => "shift by more bits than a word has"
  | .underflow => "subtraction below zero"

namespace Literal

/-- The bits of a type that count: a literal is stored in a word of 64 bits. -/
def bits (width : UInt16) : Nat :=
  min width.toNat 64

/-- A number reduced to a width: its remainder, and for a signed type the remainder in the range
around zero. -/
def wrap (value : Int) (width : UInt16) (signed : Bool) : Int64 :=
  let n := bits width
  if n = 0 then 0
  else
    let remainder := value % twoPow n
    if signed && (twoPow (n - 1) : Int) ≤ remainder then Int64.ofInt (remainder - twoPow n)
    else Int64.ofInt remainder

def number (value : Int64) (width : UInt16) (signed : Bool) : Int :=
  if signed then value.toInt else value.toInt % twoPow (bits width)

def ofNumber (value : Int) (width : UInt16) (signed : Bool) : Literal :=
  .int (wrap value width signed) width signed

def evalUnary : UnaryOp → Literal → Option Literal
  | .logicNot, .bool b => some (.bool !b)
  | .neg, .int value width signed => some (ofNumber (-number value width signed) width signed)
  | .not, .int value width signed => some (ofNumber (-number value width signed - 1) width signed)
  | .not, .bool b => some (.bool !b)
  | _, _ => none

def evalBool : BinaryOp → Bool → Bool → Option Bool
  | .logicAnd, a, b => some (a && b)
  | .bitAnd, a, b => some (a && b)
  | .logicOr, a, b => some (a || b)
  | .bitOr, a, b => some (a || b)
  | .bitXor, a, b => some (a != b)
  | .ne, a, b => some (a != b)
  | .eq, a, b => some (a == b)
  | _, _, _ => none

/-- A shift amount: the low bits of a number, as many as the width of the shifted operand has. -/
def shiftAmount (amount : Int) (width : UInt16) : Nat :=
  (amount % twoPow 128).toNat &&& (max width.toNat 1 - 1)

/-- The words of 64 bits of two numbers, combined bit by bit. -/
def bitwise (f : Nat → Nat → Nat) (x y : Int) : Int :=
  f (x % twoPow 64).toNat (y % twoPow 64).toNat

def product (x y : Int) : Option Int :=
  if -(twoPow 127 : Int) ≤ x * y ∧ x * y < twoPow 127 then some (x * y) else none

def evalNumber : BinaryOp → Int → Int → Option Int
  | .add, x, y => some (x + y)
  | .sub, x, y => some (x - y)
  | .mul, x, y => product x y
  | .div, x, y => if y = 0 then none else some (x.tdiv y)
  | .rem, x, y => if y = 0 then none else some (x.tmod y)
  | .bitAnd, x, y => some (bitwise Nat.land x y)
  | .bitOr, x, y => some (bitwise Nat.lor x y)
  | .bitXor, x, y => some (bitwise Nat.xor x y)
  | _, _, _ => none

def compare : BinaryOp → Int → Int → Option Bool
  | .eq, x, y => some (x == y)
  | .ne, x, y => some (x != y)
  | .lt, x, y => some (decide (x < y))
  | .le, x, y => some (decide (x ≤ y))
  | .gt, x, y => some (decide (y < x))
  | .ge, x, y => some (decide (y ≤ x))
  | _, _, _ => none

/-- The number that a shift gives; a shift to the right keeps the sign. -/
def evalShift : BinaryOp → Int → Nat → Option Int
  | .shl, x, amount => some (x * twoPow amount)
  | .shr, x, amount => some (x / twoPow amount)
  | _, _, _ => none

/-- The value of an operator on two literals. Except for shifts, integers have to be of one type. -/
def evalBinary (op : BinaryOp) : Literal → Literal → Except Fault (Option Literal)
  | .bool a, .bool b => .ok ((evalBool op a b).map .bool)
  | .int a width signed, .int b width' signed' =>
    let x := number a width signed
    let y := number b width' signed'
    let amount := shiftAmount y width
    match evalShift op x amount with
    | some shifted =>
      if amount < 128 then .ok (some (ofNumber shifted width signed)) else .error .shift
    | none =>
      if width ≠ width' ∨ signed ≠ signed' then .ok none
      else
        match compare op x y with
        | some b => .ok (some (.bool b))
        | none => .ok ((evalNumber op x y).map fun n => ofNumber n width signed)
  | _, _ => .ok none

def evalCast : TypeRef → Literal → Option Literal
  | .int width signed, .int value width' signed' =>
    some (ofNumber (number value width' signed') width signed)
  | .bool, .bool b => some (.bool b)
  | _, _ => none

end Literal

end Fabric
