import Fabric.Syntax.Arithmetic
import Fabric.Syntax.Tree

/-!
Constant folding. Expressions over literals are replaced by their values, and so are reads of
readonly fields and of locals that are declared once, with a literal, and never assigned. Folding fails
where an operator on two literals fails.
-/

namespace Fabric

/-- Names with the literals that they stand for; of two entries with one name the first counts. -/
abbrev Constants := List (String × Literal)

def FieldRef.qualified (f : FieldRef) : String :=
  f.declaringType ++ "::" ++ f.name

/-- The literal that an expression without its operands' operands reduces to. -/
def Expr.foldLiteral (fields locals : Constants) : Expr → Option Literal
  | .getLocal _ name => locals.lookup name
  | .getField _ field => fields.lookup field.qualified
  | .unary _ op operand => operand.asLiteral.bind (Literal.evalUnary op)
  | .binary _ op lhs rhs =>
    match lhs.asLiteral, rhs.asLiteral with
    | some a, some b => (Literal.evalBinary op a b).toOption.join
    | some (.bool false), none => if op = .logicAnd then some (.bool false) else none
    | some (.bool true), none => if op = .logicOr then some (.bool true) else none
    | _, _ => none
  | .cast _ type operand => operand.asLiteral.bind (Literal.evalCast type)
  | _ => none

/-- One step of folding at a node: a conditional with a known condition is replaced by its branch,
everything else by a literal with the number of the node. -/
def Expr.foldStep (fields locals : Constants) : Expr → Option Expr
  | .conditional _ condition ifTrue ifFalse =>
    match condition.asLiteral with
    | some (.bool true) => some ifTrue
    | some (.bool false) => some ifFalse
    | _ => none
  | e => (e.foldLiteral fields locals).map fun l => .literal e.id l

/-- Why a node has no value when its operands are simplified. -/
def Expr.fault? (f : Expr → Option Expr) : Expr → Option Fault
  | .binary _ op lhs rhs =>
    match (lhs.simplify f).1.asLiteral, (rhs.simplify f).1.asLiteral with
    | some a, some b =>
      match Literal.evalBinary op a b with
      | .error fault => some fault
      | .ok _ => none
    | _, _ => none
  | _ => none

/-- Readonly fields with a literal as their initial value. -/
def SyntaxTree.constantFields (t : SyntaxTree) : Constants :=
  (t.types.flatMap fun d => d.fields.filterMap fun f =>
    if f.isReadonly then
      (f.initializer.bind Expr.asLiteral).map fun l =>
        ((⟨d.fullName, f.name⟩ : FieldRef).qualified, l)
    else none).reverse

def Stmt.declared : Stmt → Option String
  | .declare _ name _ _ => some name
  | _ => none

/-- The locals that a statement changes other than by declaring them. -/
def Stmt.reassigned : Stmt → List String
  | .assign _ (.toLocal name) _ => [name]
  | .parallel _ _ index _ results => index :: results.toList
  | _ => []

def Stmt.literalDeclaration : Stmt → Option (String × Literal)
  | .declare _ name type init =>
    if type.isArray then none else (init.bind Expr.asLiteral).map fun l => (name, l)
  | _ => none

/-- The locals of a body that are declared once, with a literal, and not changed. -/
def Stmt.constantLocals (body : Stmt) : Constants :=
  let stmts := body.nodes
  let declared := stmts.filterMap Stmt.declared
  let reassigned := stmts.flatMap Stmt.reassigned
  stmts.filterMap fun s =>
    match s.literalDeclaration with
    | some (name, l) =>
      if declared.count name = 1 && !reassigned.contains name then some (name, l) else none
    | none => none

/-- Folds a body until nothing changes, for at most `fuel` rounds, and counts the changes. -/
def Stmt.foldRounds (fields : Constants) : Nat → Stmt → Stmt × Nat
  | 0, body => (body, 0)
  | fuel + 1, body =>
    let (body', n) := body.simplify (Expr.foldStep fields body.constantLocals)
    if n = 0 then (body', 0)
    else
      let (body'', k) := Stmt.foldRounds fields fuel body'
      (body'', n + k)

/-- Every round but the last replaces a node, so there are no more rounds than nodes. -/
def Stmt.fold (fields : Constants) (body : Stmt) : Stmt × Nat :=
  body.foldRounds fields (body.exprNodes.length + 1)

def Stmt.fault? (fields : Constants) : Nat → Stmt → Option Fault
  | 0, _ => none
  | fuel + 1, body =>
    let f := Expr.foldStep fields body.constantLocals
    (body.exprNodes.findSome? (Expr.fault? f)).or
      (let (body', n) := body.simplify f
      if n = 0 then none else Stmt.fault? fields fuel body')

def mapCount {α : Type} (f : α → α × Nat) : List α → List α × Nat
  | [] => ([], 0)
  | a :: as =>
    let (a, n) := f a
    let (as, k) := mapCount f as
    (a :: as, n + k)

def SyntaxTree.mapInitializers (f : Expr → Expr × Nat) (t : SyntaxTree) : SyntaxTree × Nat :=
  let (types, n) := mapCount
    (fun d =>
      let (fields, n) := mapCount
        (fun field =>
          match field.initializer with
          | none => (field, 0)
          | some e =>
            let (e, n) := f e
            ({ field with initializer := some e }, n))
        d.fields
      ({ d with fields := fields }, n))
    t.types
  (⟨types⟩, n)

/-- Changes the bodies of all methods, knowing the full names of the members. -/
def SyntaxTree.mapBodies (f : String → Stmt → Stmt × Nat) (t : SyntaxTree) : SyntaxTree × Nat :=
  let (types, n) := mapCount
    (fun d =>
      let (methods, n) := mapCount
        (fun m =>
          match m.body with
          | none => (m, 0)
          | some s =>
            let (s, n) := f (d.memberFullName m) s
            ({ m with body := some s }, n))
        d.methods
      ({ d with methods := methods }, n))
    t.types
  (⟨types⟩, n)

def SyntaxTree.initializerNodes (t : SyntaxTree) : List Expr :=
  t.types.flatMap fun d => d.fields.flatMap fun f => f.initializer.toList.flatMap Expr.nodes

/-- Initial values may refer to other readonly fields, so they are folded in rounds. -/
def SyntaxTree.foldInitializers : Nat → SyntaxTree → SyntaxTree × Nat
  | 0, t => (t, 0)
  | fuel + 1, t =>
    let (t', n) := t.mapInitializers fun e => e.simplify (Expr.foldStep t.constantFields [])
    if n = 0 then (t', 0)
    else
      let (t'', k) := SyntaxTree.foldInitializers fuel t'
      (t'', n + k)

def SyntaxTree.bodies (t : SyntaxTree) : List Stmt :=
  t.types.flatMap fun d => d.methods.filterMap MethodDecl.body

/-- Why folding the initial values for at most `fuel` rounds fails. -/
def SyntaxTree.initializersFault? : Nat → SyntaxTree → Option Fault
  | 0, _ => none
  | fuel + 1, t =>
    let f := Expr.foldStep t.constantFields []
    (t.initializerNodes.findSome? (Expr.fault? f)).or
      (let (t', n) := t.mapInitializers fun e => e.simplify f
      if n = 0 then none else SyntaxTree.initializersFault? fuel t')

/-- Why folding a tree fails: an operator on two literals does, in one of the rounds. -/
def SyntaxTree.foldFault? (t : SyntaxTree) : Option Fault :=
  let rounds := t.initializerNodes.length + 1
  (t.initializersFault? rounds).or
    (let t' := (t.foldInitializers rounds).1
    t'.bodies.findSome? fun body => body.fault? t'.constantFields (body.exprNodes.length + 1))

/-- Folds all constants of a tree and counts the changes. -/
def SyntaxTree.foldConstants (t : SyntaxTree) : SyntaxTree × Nat :=
  let (t, n) := t.foldInitializers (t.initializerNodes.length + 1)
  let fields := t.constantFields
  let (t, k) := t.mapBodies fun _ body => body.fold fields
  (t, n + k)

def SyntaxTree.fold (t : SyntaxTree) : Except Fault (SyntaxTree × Nat) :=
  match t.foldFault? with
  | some fault => .error fault
  | none => .ok t.foldConstants

end Fabric
