import Fabric.Lowering.Draft

/-!
Which parts of an expression are evaluated next. A call is ready when its arguments hold no call
that is still open. An expression that evaluates an operand only in some cases, and has a call in
it, is guarded: it is ready when the operand that decides holds no open call.
-/

namespace Fabric

namespace Expr

/-- Whether an operand that is evaluated only in some cases contains a call. -/
def isGuarded : Expr → Bool
  | .conditional _ _ ifTrue ifFalse => ifTrue.containsCall || ifFalse.containsCall
  | .binary _ op _ rhs => op.isLogical && rhs.containsCall
  | _ => false

end Expr

/-- What is ready in an expression: calls, and the first guarded expression. -/
structure Ready where
  calls : List Expr
  guarded : Option Expr

namespace Ready

def none : Ready := ⟨[], .none⟩

def call (e : Expr) : Ready := ⟨[e], .none⟩

def guard (e : Expr) : Ready := ⟨[], some e⟩

/-- What is ready in one expression and in another one after it. -/
def append (a b : Ready) : Ready :=
  ⟨a.calls ++ b.calls, a.guarded <|> b.guarded⟩

end Ready

namespace Draft

variable (d : Draft)

/-- Whether an expression contains a call that was not evaluated. -/
def isPending (e : Expr) : Bool :=
  !d.isEvaluated e &&
    match e with
    | .literal _ _ | .getLocal _ _ | .getParameter _ _ | .getField _ _ => false
    | .unary _ _ operand => isPending operand
    | .binary _ _ lhs rhs => isPending lhs || isPending rhs
    | .call _ _ _ => true
    | .newArray _ _ length => isPending length
    | .arrayElement _ array index => isPending array || isPending index
    | .arrayLength _ array => isPending array
    | .conditional _ condition ifTrue ifFalse =>
      isPending condition || isPending ifTrue || isPending ifFalse
    | .cast _ _ operand => isPending operand

mutual

def ready (e : Expr) : Ready :=
  if !d.isPending e then .none
  else
    match e with
    | .literal _ _ | .getLocal _ _ | .getParameter _ _ | .getField _ _ => .none
    | .unary _ _ operand => ready operand
    | .binary _ _ lhs rhs =>
      if e.isGuarded then if d.isPending lhs then ready lhs else .guard e
      else (ready lhs).append (ready rhs)
    | .call _ _ args => if args.any d.isPending then readyList args else .call e
    | .newArray _ _ length => ready length
    | .arrayElement _ array index => (ready array).append (ready index)
    | .arrayLength _ array => ready array
    | .conditional _ condition ifTrue ifFalse =>
      if e.isGuarded then if d.isPending condition then ready condition else .guard e
      else (ready condition).append ((ready ifTrue).append (ready ifFalse))
    | .cast _ _ operand => ready operand

def readyList : List Expr → Ready
  | [] => .none
  | e :: es => (ready e).append (readyList es)

end

end Draft

end Fabric
