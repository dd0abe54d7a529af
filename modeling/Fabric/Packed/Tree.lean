import Fabric.Digest.Basic
import Fabric.Packed.Basic
import Fabric.Syntax.Tree

/-!
The packed form of syntax trees, which their content digests cover.
-/

namespace Fabric

open Packed

def Visibility.position : Visibility → Nat
  | .pub => 0
  | .internal => 1
  | .prot => 2
  | .priv => 3

def TypeKind.position : TypeKind → Nat
  | .classType => 0
  | .structType => 1
  | .interfaceType => 2

def UnaryOp.position : UnaryOp → Nat
  | .neg => 0
  | .not => 1
  | .logicNot => 2

def BinaryOp.position : BinaryOp → Nat
  | .add => 0
  | .sub => 1
  | .mul => 2
  | .div => 3
  | .rem => 4
  | .bitAnd => 5
  | .bitOr => 6
  | .bitXor => 7
  | .shl => 8
  | .shr => 9
  | .eq => 10
  | .ne => 11
  | .lt => 12
  | .le => 13
  | .gt => 14
  | .ge => 15
  | .logicAnd => 16
  | .logicOr => 17

def TypeRef.pack : TypeRef → List UInt8
  | .void => packVariant 0 []
  | .bool => packVariant 1 []
  | .int width signed => packVariant 2 (packUInt16 width ++ packBool signed)
  | .array element => packVariant 3 element.pack
  | .named name => packVariant 4 (packText name)

def Literal.pack : Literal → List UInt8
  | .bool value => packVariant 0 (packBool value)
  | .int value width signed =>
    packVariant 1 (packInt64 value ++ packUInt16 width ++ packBool signed)

def MemberRef.pack (m : MemberRef) : List UInt8 :=
  packText m.declaringType ++ packText m.name ++ packList TypeRef.pack m.parameterTypes

def FieldRef.pack (f : FieldRef) : List UInt8 :=
  packText f.declaringType ++ packText f.name

mutual

def Expr.pack : Expr → List UInt8
  | .literal id value => packUInt32 id ++ packVariant 0 value.pack
  | .getLocal id name => packUInt32 id ++ packVariant 1 (packText name)
  | .getParameter id name => packUInt32 id ++ packVariant 2 (packText name)
  | .getField id field => packUInt32 id ++ packVariant 3 field.pack
  | .unary id op operand => packUInt32 id ++ packVariant 4 (packNat op.position ++ operand.pack)
  | .binary id op lhs rhs =>
    packUInt32 id ++ packVariant 5 (packNat op.position ++ lhs.pack ++ rhs.pack)
  | .call id target args =>
    packUInt32 id
      ++ packVariant 6 (target.pack ++ (packNat args.length ++ Expr.packAll args))
  | .newArray id element length => packUInt32 id ++ packVariant 7 (element.pack ++ length.pack)
  | .arrayElement id array index => packUInt32 id ++ packVariant 8 (array.pack ++ index.pack)
  | .arrayLength id array => packUInt32 id ++ packVariant 9 array.pack
  | .conditional id condition ifTrue ifFalse =>
    packUInt32 id ++ packVariant 10 (condition.pack ++ ifTrue.pack ++ ifFalse.pack)
  | .cast id type operand => packUInt32 id ++ packVariant 11 (type.pack ++ operand.pack)

def Expr.packAll : List Expr → List UInt8
  | [] => []
  | e :: es => e.pack ++ Expr.packAll es

end

def AssignTarget.pack : AssignTarget → List UInt8
  | .toLocal name => packVariant 0 (packText name)
  | .toParameter name => packVariant 1 (packText name)
  | .toField field => packVariant 2 field.pack

mutual

def Stmt.pack : Stmt → List UInt8
  | .declare id name type init =>
    packUInt32 id ++ packVariant 0 (packText name ++ type.pack ++ packOption Expr.pack init)
  | .assign id target value => packUInt32 id ++ packVariant 1 (target.pack ++ value.pack)
  | .store id array index value =>
    packUInt32 id ++ packVariant 2 (array.pack ++ index.pack ++ value.pack)
  | .branch id condition thenBranch elseBranch =>
    packUInt32 id
      ++ packVariant 3 (condition.pack ++ thenBranch.pack ++ Stmt.packOptional elseBranch)
  | .whileLoop id condition body => packUInt32 id ++ packVariant 4 (condition.pack ++ body.pack)
  | .forLoop id init condition step body =>
    packUInt32 id
      ++ packVariant 5
        (Stmt.packOptional init ++ packOption Expr.pack condition ++ Stmt.packOptional step
          ++ body.pack)
  | .ret id value => packUInt32 id ++ packVariant 6 (packOption Expr.pack value)
  | .eval id expr => packUInt32 id ++ packVariant 7 expr.pack
  | .block id stmts =>
    packUInt32 id ++ packVariant 8 (packNat stmts.length ++ Stmt.packAll stmts)
  | .breakLoop id => packUInt32 id ++ packVariant 9 []
  | .continueLoop id => packUInt32 id ++ packVariant 10 []
  | .parallel id count index call results =>
    packUInt32 id
      ++ packVariant 11
        (count.pack ++ packText index ++ call.pack ++ packOption packText results)

def Stmt.packOptional : Option Stmt → List UInt8
  | none => [0]
  | some s => 1 :: s.pack

def Stmt.packAll : List Stmt → List UInt8
  | [] => []
  | s :: ss => s.pack ++ Stmt.packAll ss

end

def Modifiers.pack (m : Modifiers) : List UInt8 :=
  packNat m.visibility.position ++ packBool m.isVirtual ++ packBool m.isStatic
    ++ packBool m.isAsync ++ packBool m.isAbstract ++ packBool m.inlineHint

def Parameter.pack (p : Parameter) : List UInt8 :=
  packText p.name ++ p.type.pack

def MethodDecl.pack (m : MethodDecl) : List UInt8 :=
  packUInt32 m.id ++ packText m.name ++ packOption packText m.explicitInterface
    ++ m.modifiers.pack ++ packList Parameter.pack m.parameters ++ m.returnType.pack
    ++ Stmt.packOptional m.body

def FieldDecl.pack (f : FieldDecl) : List UInt8 :=
  packUInt32 f.id ++ packText f.name ++ f.type.pack ++ packNat f.visibility.position
    ++ packBool f.isStatic ++ packBool f.isReadonly ++ packOption Expr.pack f.initializer

def TypeDecl.pack (t : TypeDecl) : List UInt8 :=
  packUInt32 t.id ++ packText t.fullName ++ packNat t.kind.position
    ++ packNat t.visibility.position ++ packList packText t.interfaces
    ++ packList FieldDecl.pack t.fields ++ packList MethodDecl.pack t.methods

namespace SyntaxTree

def pack (t : SyntaxTree) : List UInt8 :=
  packList TypeDecl.pack t.types

/-- The digest of the content of a tree, numbers included. -/
def digest (t : SyntaxTree) : Digest :=
  .ofBytes t.pack

end SyntaxTree

end Fabric
