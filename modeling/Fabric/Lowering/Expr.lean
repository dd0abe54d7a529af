import Fabric.Lowering.Draft
import Fabric.Lowering.Operand

/-!
Expressions as hardware. Calls and guarded expressions are evaluated before the expression around
them, so here they are read from the results of the draft. A conditional whose branches are both
evaluated becomes a conditional assignment to a temporary.
-/

namespace Fabric

namespace Lowered

def coerce (v : Lowered) (target : HwType) : HwExpr :=
  v.expr.coerce v.type target

def checkCoerce (v : Lowered) (target : HwType) : Synthesis Unit :=
  v.expr.checkCoerce v.type target

def ofLiteral : Literal → Lowered
  | .bool value => free (.bool value) .boolean
  | .int value width signed => free (.int value (.scalar width signed)) (.scalar width signed)

end Lowered

/-- What a member is lowered for: the program, its plan, and the component that is made. -/
structure Lowering where
  program : Program
  plan : CallPlan
  member : MemberPlan

namespace Lowering

variable (l : Lowering)

def unsupported {α : Type} (construct : String) : Synthesis α :=
  .error (.unsupported construct l.member.fullName)

def require {α : Type} (construct : String) : Option α → Synthesis α
  | some a => .ok a
  | none => l.unsupported construct

def lookup (d : Draft) (name : String) : Synthesis Binding :=
  l.require ("use of undeclared variable `" ++ name ++ "`") (d.binding? name)

/-- The cycles that an operator takes on values of a type. -/
def cost (op : Operator) (type : HwType) (constant : Option Int64) : Synthesis Binary64 := do
  let (width, signed) ← l.require ("`" ++ op.name ++ "` on a value of type " ++ type.display)
    type.costShape
  (l.program.timing.cycles op width signed constant).mapError SynthesisError.ofTimingError

def resultType (callee : MemberHandle) : Synthesis (Option HwType) :=
  (l.program.tree.method callee).returnType.resultHardware l.program.arrays
    (returnArrayKey (l.program.tree.memberFullName callee)) l.member.fullName

def parameterType (callee : String) (p : Parameter) : Synthesis HwType :=
  p.type.hardware l.program.arrays (memberArrayKey callee p.name) l.member.fullName

def localType (d : Draft) (type : TypeRef) (name : String) : Synthesis HwType :=
  type.hardware l.program.arrays (memberArrayKey d.frame.member name) l.member.fullName

def newArrayType (element : TypeRef) (length : Expr) : Synthesis HwType := do
  let type ← l.require ("array of `" ++ element.display ++ "`") element.scalarHardware?
  let length ← l.require "array allocated with a non-constant length" length.asCount
  return .array type length

def fieldAccess {α : Type} (f : FieldRef) : Synthesis α :=
  l.unsupported ("field access `" ++ f.declaringType ++ "." ++ f.name ++ "`")

def infer (d : Draft) (e : Expr) : Synthesis HwType :=
  match d.result? e.id with
  | some (some value) => .ok value.type
  | some none => l.unsupported "use of a void call result"
  | none =>
    match e with
    | .literal _ value => .ok (Lowered.ofLiteral value).type
    | .getLocal _ name | .getParameter _ name => (l.lookup d name).map Binding.type
    | .getField _ f => l.fieldAccess f
    | .unary _ _ operand => infer d operand
    | .binary _ op lhs rhs =>
      if op.isComparison || op.isLogical then .ok .boolean
      else do
        let a ← infer d lhs
        if op.isShift then return a
        let b ← infer d rhs
        checkOperands a lhs.intLiteral? b rhs.intLiteral?
        l.require ("operands of types " ++ a.display ++ " and " ++ b.display)
          (operandType a lhs.intLiteral? b rhs.intLiteral?)
    | .call _ target _ => do
      let callee ← l.require ("call to unknown member `" ++ target.name ++ "`")
        (l.program.tree.resolveCall target)
      l.require "use of a void call result" (← l.resultType callee)
    | .newArray _ element length => l.newArrayType element length
    | .arrayElement _ array _ => do
      l.require "indexing a value that is not an array" (← infer d array).element?
    | .arrayLength _ _ => .ok (.signed 32)
    | .conditional _ _ ifTrue ifFalse => do
      let a ← infer d ifTrue
      let b ← infer d ifFalse
      checkOperands a ifTrue.intLiteral? b ifFalse.intLiteral?
      l.require ("conditional branches of types " ++ a.display ++ " and " ++ b.display)
        (operandType a ifTrue.intLiteral? b ifFalse.intLiteral?)
    | .cast _ type _ => l.require ("conversion to `" ++ type.display ++ "`") type.scalarHardware?

def unary (op : UnaryOp) (v : Lowered) : Synthesis Lowered := do
  if op = .neg ∧ v.type = .boolean then l.unsupported "negation of a boolean"
  let cost ← l.cost op.timed v.type none
  return ⟨.unary op.hardware v.expr, v.type, cost + v.cost⟩

/-- The type in which the operands of an operator other than a shift are combined. -/
def operands (op : BinaryOp) (a b : Lowered) : Synthesis HwType := do
  let type ←
    if op.isLogical then
      if a.type ≠ .boolean ∨ b.type ≠ .boolean then
        l.unsupported "short-circuit operator on non-boolean operands"
      else pure .boolean
    else
      checkOperands a.type a.expr.intLiteral? b.type b.expr.intLiteral?
      l.require ("operands of types " ++ a.type.display ++ " and " ++ b.type.display)
        (operandType a.type a.expr.intLiteral? b.type b.expr.intLiteral?)
  if type = .boolean ∧ !op.isBoolean then l.unsupported "arithmetic on booleans"
  return type

def binary (op : BinaryOp) (a b : Lowered) : Synthesis Lowered := do
  if op.isShift then
    let cost ← l.cost op.timed a.type b.expr.intLiteral?
    return ⟨.binary op.hardware a.expr b.expr a.type, a.type, cost + max a.cost b.cost⟩
  else
    let type ← l.operands op a b
    let result := if op.isComparison then .boolean else type
    let cost ← l.cost op.timed type b.expr.intLiteral?
    a.checkCoerce type
    b.checkCoerce type
    return ⟨.binary op.hardware (a.coerce type) (b.coerce type) result, result,
      cost + max a.cost b.cost⟩

def element (array index : Lowered) : Synthesis Lowered := do
  let type ← l.require "indexing a value that is not an array" array.type.element?
  let cost ← l.cost .index index.type none
  return ⟨.index array.expr index.expr, type, cost + max array.cost index.cost⟩

def expr (e : Expr) (d : Draft) : Synthesis (Lowered × Draft) :=
  match d.result? e.id with
  | some (some value) => .ok (.free value.expr value.type, d)
  | some none => l.unsupported "use of a void call result"
  | none =>
    match e with
    | .literal _ value => .ok (.ofLiteral value, d)
    | .getLocal _ name | .getParameter _ name => do
      match ← l.lookup d name with
      | .variable name type => return (.ofVariable name type, d)
      | .constant value type => return (.free value type, d)
    | .getField _ f => l.fieldAccess f
    | .unary _ op operand => do
      let (v, d) ← expr operand d
      return (← l.unary op v, d)
    | .binary _ op lhs rhs => do
      let (a, d) ← expr lhs d
      let (b, d) ← expr rhs d
      return (← l.binary op a b, d)
    | .call _ _ _ => .error (.inconsistent "call that was not evaluated")
    | .newArray _ element length => do
      let type ← l.newArrayType element length
      return (.free (.int 0 type) type, d)
    | .arrayElement _ array index => do
      let (a, d) ← expr array d
      let (i, d) ← expr index d
      return (← l.element a i, d)
    | .arrayLength _ array => do
      match ← l.infer d array with
      | .array _ length =>
        return (.free (.int (Int64.ofNat length.toNat) (.signed 32)) (.signed 32), d)
      | _ => l.unsupported "length of a value that is not an array"
    | .conditional _ condition ifTrue ifFalse => do
      let type ← l.infer d e
      let (c, d) ← expr condition d
      let (a, d) ← expr ifTrue d
      let (b, d) ← expr ifFalse d
      a.checkCoerce type
      b.checkCoerce type
      let (name, d) := d.temporary type "conditional value"
      let choice := HwStmt.branch (c.coerce .boolean)
        [.setVariable name (a.coerce type)] [.setVariable name (b.coerce type)]
      return (.ofVariable name type, d.emit choice (c.cost + max a.cost b.cost))
    | .cast _ type operand => do
      let target ← l.require ("conversion to `" ++ type.display ++ "`") type.scalarHardware?
      let (v, d) ← expr operand d
      v.checkCoerce target
      return (⟨v.coerce target, target, v.cost⟩, d)

end Lowering

end Fabric
