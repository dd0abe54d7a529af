/-!
Types and expressions of the source program: literals, variables, operators, calls and arrays. Every
node carries its number.
-/

namespace Fabric

/-- The number of a node in its tree; zero before the tree is numbered. -/
abbrev NodeId := UInt32

inductive Visibility
  | pub
  | internal
  | prot
  | priv
deriving DecidableEq, Repr, Inhabited

inductive TypeKind
  | classType
  | structType
  | interfaceType
deriving DecidableEq, Repr, Inhabited

/-- A reference to a type of the source program. -/
inductive TypeRef
  | void
  | bool
  | int (width : UInt16) (signed : Bool)
  | array (element : TypeRef)
  | named (name : String)
deriving DecidableEq, Repr, Inhabited

namespace TypeRef

def i32 : TypeRef := .int 32 true

def u32 : TypeRef := .int 32 false

def i64 : TypeRef := .int 64 true

def isArray : TypeRef → Bool
  | .array _ => true
  | _ => false

def element? : TypeRef → Option TypeRef
  | .array element => some element
  | _ => none

def scalarShape : TypeRef → Option (UInt16 × Bool)
  | .bool => some (1, false)
  | .int width signed => some (width, signed)
  | _ => none

def display : TypeRef → String
  | .void => "void"
  | .bool => "bool"
  | .int width signed => (if signed then "i" else "u") ++ toString width.toNat
  | .array element => element.display ++ "[]"
  | .named name => name

end TypeRef

inductive UnaryOp
  | neg
  | not
  | logicNot
deriving DecidableEq, Repr

inductive BinaryOp
  | add
  | sub
  | mul
  | div
  | rem
  | bitAnd
  | bitOr
  | bitXor
  | shl
  | shr
  | eq
  | ne
  | lt
  | le
  | gt
  | ge
  | logicAnd
  | logicOr
deriving DecidableEq, Repr

def BinaryOp.isComparison : BinaryOp → Bool
  | .eq | .ne | .lt | .le | .gt | .ge => true
  | _ => false

def BinaryOp.isShift : BinaryOp → Bool
  | .shl | .shr => true
  | _ => false

def BinaryOp.isLogical : BinaryOp → Bool
  | .logicAnd | .logicOr => true
  | _ => false

/-- A constant. An unsigned value of 64 bits is stored as the signed word with the same bits. -/
inductive Literal
  | bool (value : Bool)
  | int (value : Int64) (width : UInt16) (signed : Bool)
deriving DecidableEq, Repr, Inhabited

namespace Literal

def i32 (value : Int32) : Literal := .int value.toInt64 32 true

def type : Literal → TypeRef
  | .bool _ => .bool
  | .int _ width signed => .int width signed

def asInt : Literal → Option Int64
  | .int value _ _ => some value
  | .bool _ => none

def asBool : Literal → Option Bool
  | .bool value => some value
  | .int _ _ _ => none

end Literal

/-- A method named at a call: its declaring type, its name and its parameter types. -/
structure MemberRef where
  declaringType : String
  name : String
  parameterTypes : List TypeRef
deriving DecidableEq, Repr, Inhabited

structure FieldRef where
  declaringType : String
  name : String
deriving DecidableEq, Repr, Inhabited

inductive Expr
  | literal (id : NodeId) (value : Literal)
  | getLocal (id : NodeId) (name : String)
  | getParameter (id : NodeId) (name : String)
  | getField (id : NodeId) (field : FieldRef)
  | unary (id : NodeId) (op : UnaryOp) (operand : Expr)
  | binary (id : NodeId) (op : BinaryOp) (lhs rhs : Expr)
  | call (id : NodeId) (target : MemberRef) (args : List Expr)
  | newArray (id : NodeId) (element : TypeRef) (length : Expr)
  | arrayElement (id : NodeId) (array index : Expr)
  | arrayLength (id : NodeId) (array : Expr)
  | conditional (id : NodeId) (condition ifTrue ifFalse : Expr)
  | cast (id : NodeId) (type : TypeRef) (operand : Expr)
deriving Repr, Inhabited

namespace Expr

def id : Expr → NodeId
  | .literal id _ => id
  | .getLocal id _ => id
  | .getParameter id _ => id
  | .getField id _ => id
  | .unary id _ _ => id
  | .binary id _ _ _ => id
  | .call id _ _ => id
  | .newArray id _ _ => id
  | .arrayElement id _ _ => id
  | .arrayLength id _ => id
  | .conditional id _ _ _ => id
  | .cast id _ _ => id

def asLiteral : Expr → Option Literal
  | .literal _ value => some value
  | _ => none

/-- The operands of an expression, in the order in which they are written. -/
def children : Expr → List Expr
  | .literal _ _ | .getLocal _ _ | .getParameter _ _ | .getField _ _ => []
  | .unary _ _ operand => [operand]
  | .binary _ _ lhs rhs => [lhs, rhs]
  | .call _ _ args => args
  | .newArray _ _ length => [length]
  | .arrayElement _ array index => [array, index]
  | .arrayLength _ array => [array]
  | .conditional _ condition ifTrue ifFalse => [condition, ifTrue, ifFalse]
  | .cast _ _ operand => [operand]

def isCall : Expr → Bool
  | .call _ _ _ => true
  | _ => false

mutual

/-- All nodes of an expression, each before its operands. -/
def nodes : Expr → List Expr
  | e@(.literal _ _) | e@(.getLocal _ _) | e@(.getParameter _ _) | e@(.getField _ _) => [e]
  | e@(.unary _ _ operand) => e :: operand.nodes
  | e@(.binary _ _ lhs rhs) => e :: (lhs.nodes ++ rhs.nodes)
  | e@(.call _ _ args) => e :: nodesList args
  | e@(.newArray _ _ length) => e :: length.nodes
  | e@(.arrayElement _ array index) => e :: (array.nodes ++ index.nodes)
  | e@(.arrayLength _ array) => e :: array.nodes
  | e@(.conditional _ condition ifTrue ifFalse) =>
    e :: (condition.nodes ++ ifTrue.nodes ++ ifFalse.nodes)
  | e@(.cast _ _ operand) => e :: operand.nodes

def nodesList : List Expr → List Expr
  | [] => []
  | e :: es => e.nodes ++ nodesList es

end

attribute [grind =] nodes nodesList

mutual

/-- All nodes of an expression, each after its operands. -/
def nodesAfter : Expr → List Expr
  | e@(.literal _ _) | e@(.getLocal _ _) | e@(.getParameter _ _) | e@(.getField _ _) => [e]
  | e@(.unary _ _ operand) => operand.nodesAfter ++ [e]
  | e@(.binary _ _ lhs rhs) => lhs.nodesAfter ++ rhs.nodesAfter ++ [e]
  | e@(.call _ _ args) => nodesAfterList args ++ [e]
  | e@(.newArray _ _ length) => length.nodesAfter ++ [e]
  | e@(.arrayElement _ array index) => array.nodesAfter ++ index.nodesAfter ++ [e]
  | e@(.arrayLength _ array) => array.nodesAfter ++ [e]
  | e@(.conditional _ condition ifTrue ifFalse) =>
    condition.nodesAfter ++ ifTrue.nodesAfter ++ ifFalse.nodesAfter ++ [e]
  | e@(.cast _ _ operand) => operand.nodesAfter ++ [e]

def nodesAfterList : List Expr → List Expr
  | [] => []
  | e :: es => e.nodesAfter ++ nodesAfterList es

end

attribute [grind =] nodesAfter nodesAfterList

def containsCall (e : Expr) : Bool :=
  e.nodes.any isCall

/-- A node whose operands have been simplified, with `n` replacements among them. -/
def replace (f : Expr → Option Expr) (e : Expr) (n : Nat) : Expr × Nat :=
  match f e with
  | some e' => (e', n + 1)
  | none => (e, n)

mutual

/-- Simplifies an expression from its leaves upwards and counts the nodes that were replaced. A
node is offered to `f` after its operands. -/
def simplify (f : Expr → Option Expr) : Expr → Expr × Nat
  | .literal id value => replace f (.literal id value) 0
  | .getLocal id name => replace f (.getLocal id name) 0
  | .getParameter id name => replace f (.getParameter id name) 0
  | .getField id field => replace f (.getField id field) 0
  | .unary id op operand =>
    let (operand, n) := operand.simplify f
    replace f (.unary id op operand) n
  | .binary id op lhs rhs =>
    let (lhs, n) := lhs.simplify f
    let (rhs, k) := rhs.simplify f
    replace f (.binary id op lhs rhs) (n + k)
  | .call id target args =>
    let (args, n) := simplifyList f args
    replace f (.call id target args) n
  | .newArray id element length =>
    let (length, n) := length.simplify f
    replace f (.newArray id element length) n
  | .arrayElement id array index =>
    let (array, n) := array.simplify f
    let (index, k) := index.simplify f
    replace f (.arrayElement id array index) (n + k)
  | .arrayLength id array =>
    let (array, n) := array.simplify f
    replace f (.arrayLength id array) n
  | .conditional id condition ifTrue ifFalse =>
    let (condition, n) := condition.simplify f
    let (ifTrue, k) := ifTrue.simplify f
    let (ifFalse, l) := ifFalse.simplify f
    replace f (.conditional id condition ifTrue ifFalse) (n + k + l)
  | .cast id type operand =>
    let (operand, n) := operand.simplify f
    replace f (.cast id type operand) n

def simplifyList (f : Expr → Option Expr) : List Expr → List Expr × Nat
  | [] => ([], 0)
  | e :: es =>
    let (e, n) := e.simplify f
    let (es, k) := simplifyList f es
    (e :: es, n + k)

end

attribute [grind =] simplify simplifyList

mutual

/-- Numbers the nodes of an expression from `next` on, each before its operands, and gives the
first number left over. -/
def number (next : NodeId) : Expr → Expr × NodeId
  | .literal _ value => (.literal next value, next + 1)
  | .getLocal _ name => (.getLocal next name, next + 1)
  | .getParameter _ name => (.getParameter next name, next + 1)
  | .getField _ field => (.getField next field, next + 1)
  | .unary _ op operand =>
    let (operand, n) := operand.number (next + 1)
    (.unary next op operand, n)
  | .binary _ op lhs rhs =>
    let (lhs, n) := lhs.number (next + 1)
    let (rhs, n) := rhs.number n
    (.binary next op lhs rhs, n)
  | .call _ target args =>
    let (args, n) := numberList (next + 1) args
    (.call next target args, n)
  | .newArray _ element length =>
    let (length, n) := length.number (next + 1)
    (.newArray next element length, n)
  | .arrayElement _ array index =>
    let (array, n) := array.number (next + 1)
    let (index, n) := index.number n
    (.arrayElement next array index, n)
  | .arrayLength _ array =>
    let (array, n) := array.number (next + 1)
    (.arrayLength next array, n)
  | .conditional _ condition ifTrue ifFalse =>
    let (condition, n) := condition.number (next + 1)
    let (ifTrue, n) := ifTrue.number n
    let (ifFalse, n) := ifFalse.number n
    (.conditional next condition ifTrue ifFalse, n)
  | .cast _ type operand =>
    let (operand, n) := operand.number (next + 1)
    (.cast next type operand, n)

def numberList (next : NodeId) : List Expr → List Expr × NodeId
  | [] => ([], next)
  | e :: es =>
    let (e, n) := e.number next
    let (es, n) := numberList n es
    (e :: es, n)

end

attribute [grind =] number numberList

end Expr

end Fabric
