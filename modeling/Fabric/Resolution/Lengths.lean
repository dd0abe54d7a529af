import Fabric.Power
import Fabric.Resolution.ArrayTable
import Fabric.Resolution.Fold

/-!
Inference of array lengths. An array gets the length of what it is initialised with, assigned or
passed; reads of known lengths become literals.
-/

namespace Fabric

def countOfInt64 (n : Int64) : Option UInt32 :=
  if 0 ≤ n.toInt ∧ n.toInt < twoPow 32 then some (UInt32.ofNat n.toInt.toNat) else none

def Expr.asCount (e : Expr) : Option UInt32 :=
  e.asLiteral.bind Literal.asInt |>.bind countOfInt64

/-- What lengths are looked up in: the tree for the names of callees, and the table. -/
structure LengthScope where
  tree : SyntaxTree
  table : ArrayTable
  member : String

namespace LengthScope

/-- The length of the array that an expression gives, if it is known. -/
def lengthOf (s : LengthScope) : Expr → Option UInt32
  | .newArray _ _ length => length.asCount
  | .getLocal _ name => s.table.get? (memberArrayKey s.member name)
  | .getParameter _ name => s.table.get? (memberArrayKey s.member name)
  | .getField _ field => s.table.get? (fieldArrayKey field.declaringType field.name)
  | .call _ target _ =>
    (s.tree.resolveCall target).bind fun callee =>
      s.table.get? (returnArrayKey (s.tree.memberFullName callee))
  | .conditional _ _ ifTrue ifFalse =>
    match s.lengthOf ifTrue, s.lengthOf ifFalse with
    | some a, some b => if a = b then some a else none
    | _, _ => none
  | .cast _ _ operand => s.lengthOf operand
  | _ => none

/-- The key that a target of an assignment has in the table. -/
def targetKey (s : LengthScope) : AssignTarget → String
  | .toLocal name => memberArrayKey s.member name
  | .toParameter name => memberArrayKey s.member name
  | .toField field => fieldArrayKey field.declaringType field.name

def observeStmt (s : LengthScope) : Stmt → Option (String × UInt32)
  | .declare _ name _ (some init) =>
    (s.lengthOf init).map fun n => (memberArrayKey s.member name, n)
  | .assign _ target value => (s.lengthOf value).map fun n => (s.targetKey target, n)
  | .ret _ (some value) => (s.lengthOf value).map fun n => (returnArrayKey s.member, n)
  | .parallel _ count _ _ (some results) =>
    count.asCount.map fun n => (memberArrayKey s.member results, n)
  | _ => none

/-- The lengths that a call gives the array parameters of its callee. -/
def observeCall (s : LengthScope) : Expr → List (String × UInt32)
  | .call _ target args =>
    match s.tree.resolveCall target with
    | none => []
    | some callee =>
      let name := s.tree.memberFullName callee
      ((s.tree.method callee).parameters.zip args).filterMap fun (parameter, arg) =>
        if parameter.type.isArray then
          (s.lengthOf arg).map fun n => (memberArrayKey name parameter.name, n)
        else none
  | _ => []

def observeBody (s : LengthScope) (body : Stmt) : List (String × UInt32) :=
  body.nodes.filterMap s.observeStmt ++ body.exprNodes.flatMap s.observeCall

end LengthScope

namespace SyntaxTree

/-- The lengths that a type gives arrays: those of its fields, then those of its methods. -/
def observeType (t : SyntaxTree) (table : ArrayTable) (d : TypeDecl) : List (String × UInt32) :=
  let fields := d.fields.filterMap fun f =>
    (f.initializer.bind (LengthScope.lengthOf ⟨t, table, d.fullName⟩)).map fun n =>
      (fieldArrayKey d.fullName f.name, n)
  let methods := d.methods.flatMap fun m =>
    m.body.toList.flatMap (LengthScope.observeBody ⟨t, table, d.memberFullName m⟩)
  fields ++ methods

/-- Enters all lengths that a tree gives arrays and counts the new entries. Known lengths are those
of the table before. -/
def inferLengths (t : SyntaxTree) (table : ArrayTable) : Except ResolveError Nat × ArrayTable :=
  table.recordAll (t.types.flatMap (t.observeType table))

/-- Replaces a read of a known length that fits a signed word of 32 bits. -/
def foldLengthStep (s : LengthScope) : Expr → Option Expr
  | .arrayLength id array =>
    match s.lengthOf array with
    | some n =>
      if n.toNat < twoPow 31 then some (.literal id (.int (Int64.ofInt n.toNat) 32 true)) else none
    | none => none
  | _ => none

/-- Replaces all reads of known lengths in bodies and counts them. -/
def foldArrayLengths (t : SyntaxTree) (table : ArrayTable) : SyntaxTree × Nat :=
  t.mapBodies fun member body => body.simplify (foldLengthStep ⟨t, table, member⟩)

end SyntaxTree

end Fabric
