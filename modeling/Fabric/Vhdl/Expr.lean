import Fabric.Hardware.Expr
import Fabric.Power
import Fabric.Vhdl.Names

/-!
Expressions of the generated language and their text. Numbers are vectors of bits with a sign or
without one; conversions between them are written out.
-/

namespace Fabric.Vhdl

/-- An expression of the generated language. -/
inductive Code
  | name (text : String)
  | bool (value : Bool)
  | toSigned (value : Int) (width : Nat)
  | toUnsigned (value : Int) (width : Nat)
  | signedBits (bits : List Bool)
  | unsignedBits (bits : List Bool)
  | zeroBits
  | others (element : Code)
  | negate (operand : Code)
  | complement (operand : Code)
  | product (lhs rhs : Code)
  | operation (op : HwBinaryOp) (lhs rhs : Code)
  | shiftLeft (operand amount : Code)
  | shiftRight (operand amount : Code)
  | resize (operand : Code) (width : Nat)
  | asSigned (operand : Code)
  | asUnsigned (operand : Code)
  | isNonzero (operand : Code)
  | select (array index : Code)
deriving Repr, Inhabited

namespace Code

def symbol : HwBinaryOp → String
  | .add => "+"
  | .sub => "-"
  | .mul => "*"
  | .div => "/"
  | .rem => "rem"
  | .and => "and"
  | .or => "or"
  | .xor => "xor"
  | .shl => "sll"
  | .shr => "srl"
  | .eq => "="
  | .ne => "/="
  | .lt => "<"
  | .le => "<="
  | .gt => ">"
  | .ge => ">="

def bitText (bits : List Bool) : String :=
  String.ofList (bits.map fun b => if b then '1' else '0')

def print : Code → String
  | .name text => text
  | .bool value => if value then "true" else "false"
  | .toSigned value width => "to_signed(" ++ toString value ++ ", " ++ toString width ++ ")"
  | .toUnsigned value width => "to_unsigned(" ++ toString value ++ ", " ++ toString width ++ ")"
  | .signedBits bits => "signed'(\"" ++ bitText bits ++ "\")"
  | .unsignedBits bits => "unsigned'(\"" ++ bitText bits ++ "\")"
  | .zeroBits => "(others => '0')"
  | .others element => "(others => " ++ element.print ++ ")"
  | .negate operand => "(-" ++ operand.print ++ ")"
  | .complement operand => "(not " ++ operand.print ++ ")"
  | .product lhs rhs => lhs.print ++ " * " ++ rhs.print
  | .operation op lhs rhs => "(" ++ lhs.print ++ " " ++ symbol op ++ " " ++ rhs.print ++ ")"
  | .shiftLeft operand amount =>
    "shift_left(" ++ operand.print ++ ", to_integer(" ++ amount.print ++ "))"
  | .shiftRight operand amount =>
    "shift_right(" ++ operand.print ++ ", to_integer(" ++ amount.print ++ "))"
  | .resize operand width => "resize(" ++ operand.print ++ ", " ++ toString width ++ ")"
  | .asSigned operand => "signed(" ++ operand.print ++ ")"
  | .asUnsigned operand => "unsigned(" ++ operand.print ++ ")"
  | .isNonzero operand => "(" ++ operand.print ++ " /= 0)"
  | .select array index => array.print ++ "(to_integer(" ++ index.print ++ "))"

end Code

def typeText : HwType → String
  | .boolean => "boolean"
  | .signed width => "signed(" ++ toString (width.toNat - 1) ++ " downto 0)"
  | .unsigned width => "unsigned(" ++ toString (width.toNat - 1) ++ " downto 0)"
  | .array element length => arrayTypeName (.array element length)

def defaultCode : HwType → Code
  | .boolean => .bool false
  | .signed _ => .zeroBits
  | .unsigned _ => .zeroBits
  | .array element _ => .others (defaultCode element)

/-- The bits of a word, the highest first; beyond the word the sign is repeated. -/
def bitsOf (value : Int64) (width : Nat) : List Bool :=
  (List.range width).reverse.map fun bit => value.toInt / twoPow (min bit 63) % 2 == 1

/-- A constant: a number if it fits a signed word of 32 bits, otherwise its bits. -/
def literalCode (value : Int64) : HwType → Code
  | .boolean => .bool (value != 0)
  | .signed width =>
    if -(twoPow 31 : Int) ≤ value.toInt ∧ value.toInt < twoPow 31 then
      .toSigned value.toInt width.toNat
    else .signedBits (bitsOf value width.toNat)
  | .unsigned width =>
    if 0 ≤ value.toInt ∧ value.toInt < twoPow 31 then .toUnsigned value.toInt width.toNat
    else .unsignedBits (bitsOf value width.toNat)
  | .array element _ => .others (literalCode value element)

/-- A conversion between types; those that have no form are left out. -/
def resizeCode (operand : Code) : HwType → HwType → Code
  | .boolean, .boolean => operand
  | _, .boolean => .isNonzero operand
  | .signed _, .signed width => .resize operand width.toNat
  | .unsigned _, .unsigned width => .resize operand width.toNat
  | .signed _, .unsigned width => .asUnsigned (.resize operand width.toNat)
  | .unsigned _, .signed width => .asSigned (.resize operand width.toNat)
  | _, _ => operand

/-- The component whose process is written, and the number of its instance. -/
structure Scope where
  names : Names
  component : Component
  number : Nat

namespace Scope

/-- The position of a variable among the declarations; of two with one name the later one, and
beyond all of them if there is none. -/
def variablePosition (s : Scope) (name : String) : Nat :=
  let declared := s.component.declarations.map Declaration.name
  match declared.zipIdx.reverse.find? fun d => d.1 = name with
  | some (_, position) => position
  | none => declared.eraseDups.length

def variableName (s : Scope) (name : String) : String :=
  s.names.variableName name (s.variablePosition name)

def signal (s : Scope) : SignalRef → String
  | .own pin => s.names.instanceSignal s.component.name s.number pin
  | .invocation target slot pin =>
    s.names.slotSignal target s.component.name s.number slot.toNat pin

/-- The form of an expression in the generated language. A product has twice the width of its
operands and is cut. -/
def code (s : Scope) : HwExpr → Code
  | .bool value => .bool value
  | .int value type => literalCode value type
  | .variable name => .name (s.variableName name)
  | .signal signal => .name (s.signal signal)
  | .unary .neg operand => .negate (s.code operand)
  | .unary .not operand => .complement (s.code operand)
  | .binary op lhs rhs type =>
    match op with
    | .mul =>
      .resize (.product (s.code lhs) (s.code rhs))
        (match type.shape with
        | some (width, _) => width.toNat
        | none => 32)
    | .shl => .shiftLeft (s.code lhs) (s.code rhs)
    | .shr => .shiftRight (s.code lhs) (s.code rhs)
    | op => .operation op (s.code lhs) (s.code rhs)
  | .index array index => .select (s.code array) (s.code index)
  | .resize operand source target => resizeCode (s.code operand) source target

def expr (s : Scope) (e : HwExpr) : String :=
  (s.code e).print

end Scope

end Fabric.Vhdl
