import Fabric.Syntax.Stmt
import Fabric.Text.Lines

/-!
Syntax trees: types with their fields and methods. A tree is numbered in the order in which it is
written, from one.
-/

namespace Fabric

structure Modifiers where
  visibility : Visibility := .priv
  isVirtual : Bool := false
  isStatic : Bool := false
  isAsync : Bool := false
  isAbstract : Bool := false
  inlineHint : Bool := false
deriving DecidableEq, Repr, Inhabited

structure Parameter where
  name : String
  type : TypeRef
deriving DecidableEq, Repr, Inhabited

structure MethodDecl where
  id : NodeId := 0
  name : String
  explicitInterface : Option String := none
  modifiers : Modifiers := {}
  parameters : List Parameter := []
  returnType : TypeRef := .void
  body : Option Stmt := none
deriving Repr, Inhabited

structure FieldDecl where
  id : NodeId := 0
  name : String
  type : TypeRef
  visibility : Visibility := .priv
  isStatic : Bool := false
  isReadonly : Bool := false
  initializer : Option Expr := none
deriving Repr, Inhabited

structure TypeDecl where
  id : NodeId := 0
  fullName : String
  kind : TypeKind := .classType
  visibility : Visibility := .priv
  interfaces : List String := []
  fields : List FieldDecl := []
  methods : List MethodDecl := []
deriving Repr, Inhabited

structure SyntaxTree where
  types : List TypeDecl
deriving Repr, Inhabited

/-- Parameter types as they are written after the name of a method. -/
def signatureSuffix (types : List TypeRef) : String :=
  "(" ++ Text.joinWith "," (types.map TypeRef.display) ++ ")"

namespace MethodDecl

def parameterTypes (m : MethodDecl) : List TypeRef :=
  m.parameters.map Parameter.type

def suffix (m : MethodDecl) : String :=
  signatureSuffix m.parameterTypes

def parameter? (m : MethodDecl) (name : String) : Option Parameter :=
  m.parameters.find? fun p => p.name = name

def number (next : NodeId) (m : MethodDecl) : MethodDecl × NodeId :=
  let (body, n) := Stmt.numberStmtOption (next + 1) m.body
  ({ m with id := next, body := body }, n)

end MethodDecl

def FieldDecl.number (next : NodeId) (f : FieldDecl) : FieldDecl × NodeId :=
  let (initializer, n) := Stmt.numberOption (next + 1) f.initializer
  ({ f with id := next, initializer := initializer }, n)

def numberAll {α : Type} (number : NodeId → α → α × NodeId) (next : NodeId) :
    List α → List α × NodeId
  | [] => ([], next)
  | a :: as =>
    let (a, n) := number next a
    let (as, n) := numberAll number n as
    (a :: as, n)

namespace TypeDecl

/-- The name of a method with its type and its parameter types, which tells members apart. -/
def memberFullName (t : TypeDecl) (m : MethodDecl) : String :=
  t.fullName ++ "." ++ m.name ++ m.suffix

def field? (t : TypeDecl) (name : String) : Option FieldDecl :=
  t.fields.find? fun f => f.name = name

def number (next : NodeId) (t : TypeDecl) : TypeDecl × NodeId :=
  let (fields, n) := numberAll FieldDecl.number (next + 1) t.fields
  let (methods, n) := numberAll MethodDecl.number n t.methods
  ({ t with id := next, fields := fields, methods := methods }, n)

end TypeDecl

namespace SyntaxTree

/-- The tree of some type declarations, its nodes numbered from one. -/
def ofTypes (types : List TypeDecl) : SyntaxTree :=
  ⟨(numberAll TypeDecl.number 1 types).1⟩

def findType? (t : SyntaxTree) (fullName : String) : Option TypeDecl :=
  t.types.find? fun d => d.fullName = fullName

end SyntaxTree

end Fabric
