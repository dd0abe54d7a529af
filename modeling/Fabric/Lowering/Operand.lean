import Fabric.Hardware.Expr
import Fabric.Syntax.Expr
import Fabric.Synthesis.Types

/-!
Operators and operands: conversions between hardware types, and the type in which the operands of
an operator meet. A constant takes the type of the other operand if it fits there. Before either is
done it is checked that this can be asked.
-/

namespace Fabric

/-- Converts an expression from one type to another. A constant that fits is written with the new
type. -/
def HwExpr.coerce (e : HwExpr) (source target : HwType) : HwExpr :=
  if source = target then e
  else
    match e with
    | .int value _ => if target.represents value then .int value target else .resize e source target
    | e => .resize e source target

def HwExpr.checkCoerce (e : HwExpr) (source target : HwType) : Synthesis Unit :=
  if source = target then .ok ()
  else
    match e with
    | .int value _ => target.checkFits value
    | _ => .ok ()

def HwExpr.intLiteral? : HwExpr → Option Int64
  | .int _ (.array _ _) => none
  | .int value _ => some value
  | _ => none

def Expr.intLiteral? (e : Expr) : Option Int64 :=
  e.asLiteral.bind Literal.asInt

/-- The type to which both operands are converted; constants among them are given by value. -/
def operandType (lhs : HwType) (lhsConstant : Option Int64) (rhs : HwType)
    (rhsConstant : Option Int64) : Option HwType :=
  match lhsConstant, rhsConstant with
  | some value, none => if rhs.represents value then some rhs else lhs.promote rhs
  | none, some value => if lhs.represents value then some lhs else lhs.promote rhs
  | _, _ => lhs.promote rhs

def checkOperands (lhs : HwType) (lhsConstant : Option Int64) (rhs : HwType)
    (rhsConstant : Option Int64) : Synthesis Unit :=
  match lhsConstant, rhsConstant with
  | some value, none => rhs.checkFits value
  | none, some value => lhs.checkFits value
  | _, _ => .ok ()

namespace BinaryOp

def hardware : BinaryOp → HwBinaryOp
  | .add => .add
  | .sub => .sub
  | .mul => .mul
  | .div => .div
  | .rem => .rem
  | .bitAnd | .logicAnd => .and
  | .bitOr | .logicOr => .or
  | .bitXor => .xor
  | .shl => .shl
  | .shr => .shr
  | .eq => .eq
  | .ne => .ne
  | .lt => .lt
  | .le => .le
  | .gt => .gt
  | .ge => .ge

def timed : BinaryOp → Operator
  | .add => .add
  | .sub => .sub
  | .mul => .mul
  | .div => .div
  | .rem => .rem
  | .bitAnd | .logicAnd => .and
  | .bitOr | .logicOr => .or
  | .bitXor => .xor
  | .shl => .shl
  | .shr => .shr
  | .eq => .eq
  | .ne => .ne
  | .lt => .lt
  | .le => .le
  | .gt => .gt
  | .ge => .ge

def isBoolean : BinaryOp → Bool
  | .bitAnd | .bitOr | .bitXor | .logicAnd | .logicOr | .eq | .ne => true
  | _ => false

end BinaryOp

namespace UnaryOp

def hardware : UnaryOp → HwUnaryOp
  | .neg => .neg
  | .not | .logicNot => .not

def timed : UnaryOp → Operator
  | .neg => .neg
  | .not | .logicNot => .not

end UnaryOp

end Fabric
