/-!
Types, expressions and statements of hardware: signals, variables and operators on them, assignments and
conditional assignments. The order of types puts an element before every array of it.
-/

namespace Fabric

inductive HwType
  | boolean
  | signed (width : UInt16)
  | unsigned (width : UInt16)
  | array (element : HwType) (length : UInt32)
deriving DecidableEq, Repr, Inhabited

namespace HwType

def scalar (width : UInt16) (signed : Bool) : HwType :=
  if signed then .signed width else .unsigned width

def shape : HwType → Option (UInt16 × Bool)
  | .boolean => some (1, false)
  | .signed width => some (width, true)
  | .unsigned width => some (width, false)
  | .array _ _ => none

def element? : HwType → Option HwType
  | .array element _ => some element
  | _ => none

def display : HwType → String
  | .boolean => "bool"
  | .signed width => "i" ++ toString width.toNat
  | .unsigned width => "u" ++ toString width.toNat
  | .array element length => element.display ++ "[" ++ toString length.toNat ++ "]"

def rank : HwType → Nat
  | .boolean => 0
  | .signed _ => 1
  | .unsigned _ => 2
  | .array _ _ => 3

/-- The order of types: by kind, then by width, or by element and length. -/
def cmp : HwType → HwType → Ordering
  | .signed v, .signed w => compare v.toNat w.toNat
  | .unsigned v, .unsigned w => compare v.toNat w.toNat
  | .array s m, .array t n => (s.cmp t).then (compare m.toNat n.toNat)
  | s, t => compare s.rank t.rank

end HwType

/-- A pin of a component: the two signals of the handshake, the parameters and the result. -/
inductive PinKind
  | started
  | finished
  | parameter (name : String)
  | result
deriving DecidableEq, Repr, Inhabited

def PinKind.display : PinKind → String
  | .started => "Started"
  | .finished => "Finished"
  | .parameter name => "Parameter." ++ name
  | .result => "Return"

/-- A signal that a component sees: a pin of its own, or a pin of a slot through which it invokes
another component. -/
inductive SignalRef
  | own (pin : PinKind)
  | invocation (target : String) (slot : UInt32) (pin : PinKind)
deriving DecidableEq, Repr, Inhabited

inductive HwUnaryOp
  | neg
  | not
deriving DecidableEq, Repr

inductive HwBinaryOp
  | add
  | sub
  | mul
  | div
  | rem
  | and
  | or
  | xor
  | shl
  | shr
  | eq
  | ne
  | lt
  | le
  | gt
  | ge
deriving DecidableEq, Repr

/-- An expression. A binary operator carries the type of its result, a conversion both types. -/
inductive HwExpr
  | bool (value : Bool)
  | int (value : Int64) (type : HwType)
  | variable (name : String)
  | signal (signal : SignalRef)
  | unary (op : HwUnaryOp) (operand : HwExpr)
  | binary (op : HwBinaryOp) (lhs rhs : HwExpr) (type : HwType)
  | index (array index : HwExpr)
  | resize (operand : HwExpr) (source target : HwType)
deriving DecidableEq, Repr, Inhabited

inductive HwTarget
  | variable (name : String)
  | element (array : String) (index : HwExpr)
  | signal (signal : SignalRef)
deriving DecidableEq, Repr, Inhabited

inductive HwStmt
  | assign (target : HwTarget) (value : HwExpr)
  | branch (condition : HwExpr) (thenBody elseBody : List HwStmt)
  | comment (text : String)
deriving BEq, Repr, Inhabited

namespace HwStmt

def setVariable (name : String) (value : HwExpr) : HwStmt :=
  .assign (.variable name) value

def drive (signal : SignalRef) (value : HwExpr) : HwStmt :=
  .assign (.signal signal) value

end HwStmt

end Fabric
