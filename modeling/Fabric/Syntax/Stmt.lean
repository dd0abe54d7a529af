import Fabric.Syntax.Expr

/-!
Statements of the source program. The expressions of a statement come before the statements inside
it, and those of a `for` loop in the order initialisation, body, step.
-/

namespace Fabric

inductive AssignTarget
  | toLocal (name : String)
  | toParameter (name : String)
  | toField (field : FieldRef)
deriving DecidableEq, Repr, Inhabited

inductive Stmt
  | declare (id : NodeId) (name : String) (type : TypeRef) (init : Option Expr)
  | assign (id : NodeId) (target : AssignTarget) (value : Expr)
  | store (id : NodeId) (array index value : Expr)
  | branch (id : NodeId) (condition : Expr) (thenBranch : Stmt) (elseBranch : Option Stmt)
  | whileLoop (id : NodeId) (condition : Expr) (body : Stmt)
  | forLoop (id : NodeId) (init : Option Stmt) (condition : Option Expr) (step : Option Stmt)
      (body : Stmt)
  | ret (id : NodeId) (value : Option Expr)
  | eval (id : NodeId) (expr : Expr)
  | block (id : NodeId) (stmts : List Stmt)
  | breakLoop (id : NodeId)
  | continueLoop (id : NodeId)
  | parallel (id : NodeId) (count : Expr) (index : String) (call : Expr) (results : Option String)
deriving Repr, Inhabited

namespace Stmt

def id : Stmt → NodeId
  | .declare id _ _ _ => id
  | .assign id _ _ => id
  | .store id _ _ _ => id
  | .branch id _ _ _ => id
  | .whileLoop id _ _ => id
  | .forLoop id _ _ _ _ => id
  | .ret id _ => id
  | .eval id _ => id
  | .block id _ => id
  | .breakLoop id => id
  | .continueLoop id => id
  | .parallel id _ _ _ _ => id

def exprs : Stmt → List Expr
  | .declare _ _ _ init => init.toList
  | .assign _ _ value => [value]
  | .store _ array index value => [array, index, value]
  | .branch _ condition _ _ => [condition]
  | .whileLoop _ condition _ => [condition]
  | .forLoop _ _ condition _ _ => condition.toList
  | .ret _ value => value.toList
  | .eval _ expr => [expr]
  | .parallel _ count _ call _ => [count, call]
  | .block _ _ | .breakLoop _ | .continueLoop _ => []

def children : Stmt → List Stmt
  | .branch _ _ thenBranch elseBranch => thenBranch :: elseBranch.toList
  | .whileLoop _ _ body => [body]
  | .forLoop _ init _ step body => init.toList ++ body :: step.toList
  | .block _ stmts => stmts
  | _ => []

mutual

/-- All statements of a statement, each before those inside it. -/
def nodes : Stmt → List Stmt
  | s@(.branch _ _ thenBranch elseBranch) => s :: (thenBranch.nodes ++ nodesOption elseBranch)
  | s@(.whileLoop _ _ body) => s :: body.nodes
  | s@(.forLoop _ init _ step body) => s :: (nodesOption init ++ body.nodes ++ nodesOption step)
  | s@(.block _ stmts) => s :: nodesList stmts
  | s => [s]

def nodesOption : Option Stmt → List Stmt
  | none => []
  | some s => s.nodes

def nodesList : List Stmt → List Stmt
  | [] => []
  | s :: ss => s.nodes ++ nodesList ss

end

attribute [grind =] nodes nodesOption nodesList

/-- All expression nodes of a statement, each before its operands. -/
def exprNodes (s : Stmt) : List Expr :=
  s.nodes.flatMap fun t => t.exprs.flatMap Expr.nodes

/-- All expression nodes of a statement, each after its operands. -/
def exprNodesAfter (s : Stmt) : List Expr :=
  s.nodes.flatMap fun t => t.exprs.flatMap Expr.nodesAfter

def isLoop : Stmt → Bool
  | .whileLoop _ _ _ | .forLoop _ _ _ _ _ | .parallel _ _ _ _ _ => true
  | _ => false

def containsLoop (s : Stmt) : Bool :=
  s.nodes.any isLoop

def containsCall (s : Stmt) : Bool :=
  s.exprNodes.any Expr.isCall

def simplifyOption (f : Expr → Option Expr) : Option Expr → Option Expr × Nat
  | none => (none, 0)
  | some e =>
    let (e, n) := e.simplify f
    (some e, n)

mutual

/-- Simplifies every expression of a statement from its leaves upwards and counts the nodes that
were replaced. -/
def simplify (f : Expr → Option Expr) : Stmt → Stmt × Nat
  | .declare id name type init =>
    let (init, n) := simplifyOption f init
    (.declare id name type init, n)
  | .assign id target value =>
    let (value, n) := value.simplify f
    (.assign id target value, n)
  | .store id array index value =>
    let (array, n) := array.simplify f
    let (index, k) := index.simplify f
    let (value, l) := value.simplify f
    (.store id array index value, n + k + l)
  | .branch id condition thenBranch elseBranch =>
    let (condition, n) := condition.simplify f
    let (thenBranch, k) := thenBranch.simplify f
    let (elseBranch, l) := simplifyStmtOption f elseBranch
    (.branch id condition thenBranch elseBranch, n + k + l)
  | .whileLoop id condition body =>
    let (condition, n) := condition.simplify f
    let (body, k) := body.simplify f
    (.whileLoop id condition body, n + k)
  | .forLoop id init condition step body =>
    let (condition, n) := simplifyOption f condition
    let (init, k) := simplifyStmtOption f init
    let (body, l) := body.simplify f
    let (step, m) := simplifyStmtOption f step
    (.forLoop id init condition step body, n + k + l + m)
  | .ret id value =>
    let (value, n) := simplifyOption f value
    (.ret id value, n)
  | .eval id expr =>
    let (expr, n) := expr.simplify f
    (.eval id expr, n)
  | .block id stmts =>
    let (stmts, n) := simplifyList f stmts
    (.block id stmts, n)
  | .breakLoop id => (.breakLoop id, 0)
  | .continueLoop id => (.continueLoop id, 0)
  | .parallel id count index call results =>
    let (count, n) := count.simplify f
    let (call, k) := call.simplify f
    (.parallel id count index call results, n + k)

def simplifyStmtOption (f : Expr → Option Expr) : Option Stmt → Option Stmt × Nat
  | none => (none, 0)
  | some s =>
    let (s, n) := s.simplify f
    (some s, n)

def simplifyList (f : Expr → Option Expr) : List Stmt → List Stmt × Nat
  | [] => ([], 0)
  | s :: ss =>
    let (s, n) := s.simplify f
    let (ss, k) := simplifyList f ss
    (s :: ss, n + k)

end

attribute [grind =] simplify simplifyStmtOption simplifyList

def numberOption (next : NodeId) : Option Expr → Option Expr × NodeId
  | none => (none, next)
  | some e =>
    let (e, n) := e.number next
    (some e, n)

mutual

/-- Numbers the nodes of a statement from `next` on: the statement, its expressions, and the
statements inside it. -/
def number (next : NodeId) : Stmt → Stmt × NodeId
  | .declare _ name type init =>
    let (init, n) := numberOption (next + 1) init
    (.declare next name type init, n)
  | .assign _ target value =>
    let (value, n) := value.number (next + 1)
    (.assign next target value, n)
  | .store _ array index value =>
    let (array, n) := array.number (next + 1)
    let (index, n) := index.number n
    let (value, n) := value.number n
    (.store next array index value, n)
  | .branch _ condition thenBranch elseBranch =>
    let (condition, n) := condition.number (next + 1)
    let (thenBranch, n) := thenBranch.number n
    let (elseBranch, n) := numberStmtOption n elseBranch
    (.branch next condition thenBranch elseBranch, n)
  | .whileLoop _ condition body =>
    let (condition, n) := condition.number (next + 1)
    let (body, n) := body.number n
    (.whileLoop next condition body, n)
  | .forLoop _ init condition step body =>
    let (condition, n) := numberOption (next + 1) condition
    let (init, n) := numberStmtOption n init
    let (body, n) := body.number n
    let (step, n) := numberStmtOption n step
    (.forLoop next init condition step body, n)
  | .ret _ value =>
    let (value, n) := numberOption (next + 1) value
    (.ret next value, n)
  | .eval _ expr =>
    let (expr, n) := expr.number (next + 1)
    (.eval next expr, n)
  | .block _ stmts =>
    let (stmts, n) := numberList (next + 1) stmts
    (.block next stmts, n)
  | .breakLoop _ => (.breakLoop next, next + 1)
  | .continueLoop _ => (.continueLoop next, next + 1)
  | .parallel _ count index call results =>
    let (count, n) := count.number (next + 1)
    let (call, n) := call.number n
    (.parallel next count index call results, n)

def numberStmtOption (next : NodeId) : Option Stmt → Option Stmt × NodeId
  | none => (none, next)
  | some s =>
    let (s, n) := s.number next
    (some s, n)

def numberList (next : NodeId) : List Stmt → List Stmt × NodeId
  | [] => ([], next)
  | s :: ss =>
    let (s, n) := s.number next
    let (ss, n) := numberList n ss
    (s :: ss, n)

end

attribute [grind =] number numberStmtOption numberList

end Stmt

end Fabric
