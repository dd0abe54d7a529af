import Fabric.Syntax.Tree

/-!
What each node of a tree stands in. The entries are in the order of the numbers of the tree.
-/

namespace Fabric

inductive NodeKind
  | type
  | field
  | method
  | statement
  | expression
deriving DecidableEq, Repr

structure ParentEntry where
  id : NodeId
  parent : Option NodeId
  kind : NodeKind
deriving DecidableEq, Repr

structure ParentIndex where
  entries : List ParentEntry

namespace ParentIndex

mutual

def exprEntries (parent : NodeId) : Expr → List ParentEntry
  | .literal id _ => [⟨id, some parent, .expression⟩]
  | .getLocal id _ => [⟨id, some parent, .expression⟩]
  | .getParameter id _ => [⟨id, some parent, .expression⟩]
  | .getField id _ => [⟨id, some parent, .expression⟩]
  | .unary id _ operand => ⟨id, some parent, .expression⟩ :: exprEntries id operand
  | .binary id _ lhs rhs =>
    ⟨id, some parent, .expression⟩ :: (exprEntries id lhs ++ exprEntries id rhs)
  | .call id _ args => ⟨id, some parent, .expression⟩ :: argEntries id args
  | .newArray id _ length => ⟨id, some parent, .expression⟩ :: exprEntries id length
  | .arrayElement id array index =>
    ⟨id, some parent, .expression⟩ :: (exprEntries id array ++ exprEntries id index)
  | .arrayLength id array => ⟨id, some parent, .expression⟩ :: exprEntries id array
  | .conditional id condition ifTrue ifFalse =>
    ⟨id, some parent, .expression⟩
      :: (exprEntries id condition ++ exprEntries id ifTrue ++ exprEntries id ifFalse)
  | .cast id _ operand => ⟨id, some parent, .expression⟩ :: exprEntries id operand

def argEntries (parent : NodeId) : List Expr → List ParentEntry
  | [] => []
  | e :: es => exprEntries parent e ++ argEntries parent es

end

def stmtHead (parent : NodeId) (s : Stmt) : List ParentEntry :=
  ⟨s.id, some parent, .statement⟩ :: s.exprs.flatMap (exprEntries s.id)

mutual

def stmtEntries (parent : NodeId) : Stmt → List ParentEntry
  | s@(.branch id _ thenBranch elseBranch) =>
    stmtHead parent s ++ stmtEntries id thenBranch ++ optionEntries id elseBranch
  | s@(.whileLoop id _ body) => stmtHead parent s ++ stmtEntries id body
  | s@(.forLoop id init _ step body) =>
    stmtHead parent s ++ optionEntries id init ++ stmtEntries id body ++ optionEntries id step
  | s@(.block id stmts) => stmtHead parent s ++ blockEntries id stmts
  | s => stmtHead parent s

def optionEntries (parent : NodeId) : Option Stmt → List ParentEntry
  | none => []
  | some s => stmtEntries parent s

def blockEntries (parent : NodeId) : List Stmt → List ParentEntry
  | [] => []
  | s :: ss => stmtEntries parent s ++ blockEntries parent ss

end

def fieldEntries (parent : NodeId) (f : FieldDecl) : List ParentEntry :=
  ⟨f.id, some parent, .field⟩ :: f.initializer.toList.flatMap (exprEntries f.id)

def methodEntries (parent : NodeId) (m : MethodDecl) : List ParentEntry :=
  ⟨m.id, some parent, .method⟩ :: optionEntries m.id m.body

def typeEntries (t : TypeDecl) : List ParentEntry :=
  ⟨t.id, none, .type⟩ :: (t.fields.flatMap (fieldEntries t.id)
    ++ t.methods.flatMap (methodEntries t.id))

def ofTree (t : SyntaxTree) : ParentIndex :=
  ⟨t.types.flatMap typeEntries⟩

def entry? (p : ParentIndex) (id : NodeId) : Option ParentEntry :=
  p.entries.find? fun e => e.id = id

def parent? (p : ParentIndex) (id : NodeId) : Option NodeId :=
  (p.entry? id).bind ParentEntry.parent

def kind? (p : ParentIndex) (id : NodeId) : Option NodeKind :=
  (p.entry? id).map ParentEntry.kind

/-- At most `fuel` nodes around a node, the nearest first. -/
def ancestorsUpTo (p : ParentIndex) : Nat → NodeId → List NodeId
  | 0, _ => []
  | fuel + 1, id =>
    match p.parent? id with
    | none => []
    | some parent => parent :: p.ancestorsUpTo fuel parent

/-- The nodes around a node, the nearest first; there are fewer than the tree has nodes. -/
def ancestors (p : ParentIndex) (id : NodeId) : List NodeId :=
  p.ancestorsUpTo p.entries.length id

def enclosing (p : ParentIndex) (id : NodeId) (kind : NodeKind) : Option NodeId :=
  (p.ancestors id).find? fun a => p.kind? a = some kind

end ParentIndex

end Fabric
