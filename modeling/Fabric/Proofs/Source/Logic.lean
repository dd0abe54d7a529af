import Fabric.Lowering.Member
import Fabric.Proofs.Machine.Basic
import Fabric.Proofs.Syntax.Nodes

namespace Fabric

namespace BinaryOp

def onBooleans : BinaryOp → Bool → Bool → Bool
  | .bitAnd, a, b | .logicAnd, a, b => a && b
  | .bitOr, a, b | .logicOr, a, b => a || b
  | .eq, a, b => a == b
  | .bitXor, a, b | .ne, a, b => a != b
  | _, _, _ => false

def settles : BinaryOp → Bool → Bool
  | .logicAnd, a => !a
  | .logicOr, a => a
  | _, _ => false

theorem onBooleans_of_settles {op : BinaryOp} {a : Bool} (h : op.settles a) (b : Bool) :
    op.onBooleans a b = a := by
  cases op <;> cases a <;> first | rfl | cases h

theorem isLogical_of_settles {op : BinaryOp} {a : Bool} (h : op.settles a) : op.isLogical := by
  cases op <;> first | rfl | cases h

end BinaryOp

variable {V : Type}

/-- Booleans are computed as booleans. -/
structure Interpretation.IsBoolean (I : Interpretation V) : Prop where
  truth : ∀ a, I.truth (I.bool a) = a
  not : ∀ a, I.unary .not (I.bool a) = I.bool !a
  binary : ∀ op : BinaryOp, op.isBoolean → ∀ a b,
    I.binary op.hardware (I.bool a) (I.bool b) .boolean = I.bool (op.onBooleans a b)

/-- What a member meets: the values of its parameters, and the results of what it invokes. -/
structure World (V : Type) where
  parameter : String → Bool
  result : Started V → Bool

def pinned (entries : List (String × V)) : String → Option V :=
  entries.foldl (fun f p x ↦ if x = p.1 then some p.2 else f x) fun _ ↦ none

variable (I : Interpretation V) (tree : SyntaxTree) (w : World V)

def SyntaxTree.invoked (target : MemberRef) (values : List Bool) : Started V :=
  match tree.resolveCall target with
  | some h => (tree.memberFullName h,
      pinned (((tree.method h).parameters.map Parameter.name).zip (values.map I.bool)))
  | none => ("", fun _ ↦ none)

namespace Expr

mutual

/-- The value of an expression, and the invocations that are made for it in their order. -/
def perform : Expr → Bool × List (Started V)
  | .literal _ (.bool value) => (value, [])
  | .getParameter _ name => (w.parameter name, [])
  | .unary _ _ operand =>
    let (a, calls) := perform operand
    (!a, calls)
  | .binary _ op lhs rhs =>
    let (a, calls) := perform lhs
    if op.settles a then (a, calls)
    else
      let (b, more) := perform rhs
      (op.onBooleans a b, calls ++ more)
  | .conditional _ condition ifTrue ifFalse =>
    let (c, calls) := perform condition
    let (a, more) := if c then perform ifTrue else perform ifFalse
    (a, calls ++ more)
  | .call _ target args =>
    let (values, calls) := performAll args
    let call := tree.invoked I target values
    (w.result call, calls ++ [call])
  | _ => (false, [])

def performAll : List Expr → List Bool × List (Started V)
  | [] => ([], [])
  | e :: es =>
    let (a, calls) := perform e
    let (values, more) := performAll es
    (a :: values, calls ++ more)

end

def truth (e : Expr) : Bool := (e.perform I tree w).1

end Expr

def Lowering.Supplies (l : Lowering) (name : String) : Prop :=
  '.' ∉ name.toList ∧
    ∃ p ∈ (l.program.tree.method l.member.handle).parameters, p.name = name ∧
      ∀ q ∈ (l.program.tree.method l.member.handle).parameters, q.name = name → q.type = .bool

instance (l : Lowering) (name : String) : Decidable (l.Supplies name) :=
  inferInstanceAs (Decidable (_ ∧ _))

/-- A node of a boolean expression in a member: its parameters and its calls are of booleans, and its
calls are not expanded in place. -/
def Lowering.Admits (l : Lowering) : Expr → Prop
  | .literal _ (.bool _) => True
  | .getParameter _ name => l.Supplies name
  | .unary _ op _ => op = .logicNot
  | .binary _ op _ _ => op.isBoolean
  | .conditional _ _ _ _ => True
  | .call _ target _ => ∃ h, l.program.tree.resolveCall target = some h ∧
      l.plan.isInlined h = false ∧ (l.program.tree.method h).returnType = .bool ∧
        ∀ p ∈ (l.program.tree.method h).parameters, p.type = .bool
  | _ => False

instance (l : Lowering) (e : Expr) : Decidable (l.Admits e) :=
  match e with
  | .literal _ (.bool _) | .conditional _ _ _ _ => .isTrue trivial
  | .getParameter _ name => inferInstanceAs (Decidable (l.Supplies name))
  | .unary _ op _ => inferInstanceAs (Decidable (op = .logicNot))
  | .binary _ op _ _ => inferInstanceAs (Decidable (op.isBoolean = true))
  | .call _ target _ =>
    match ht : l.program.tree.resolveCall target with
    | some h =>
      decidable_of_iff (l.plan.isInlined h = false ∧ (l.program.tree.method h).returnType = .bool ∧
        ∀ p ∈ (l.program.tree.method h).parameters, p.type = .bool)
        (by simp [Lowering.Admits, ht])
    | none => .isFalse (by simp [Lowering.Admits, ht])
  | .literal _ (.int _ _ _) | .getLocal _ _ | .getField _ _ | .newArray _ _ _ | .arrayElement _ _ _
  | .arrayLength _ _ | .cast _ _ _ => .isFalse id

def Expr.IsLogic (l : Lowering) (e : Expr) : Prop := ∀ n ∈ e.nodes, l.Admits n

instance (l : Lowering) (e : Expr) : Decidable (e.IsLogic l) :=
  inferInstanceAs (Decidable (∀ n ∈ e.nodes, l.Admits n))

theorem Expr.IsLogic.child {l : Lowering} {e c : Expr} (h : e.IsLogic l) (hc : c ∈ e.children) :
    c.IsLogic l :=
  fun n hn ↦ h n (nodes_subset_of_mem_children hc hn)

theorem Expr.IsLogic.mono {l : Lowering} {e c : Expr} (h : e.IsLogic l) (hc : c ∈ e.nodes) :
    c.IsLogic l :=
  fun n hn ↦ h n (nodes_subset hc hn)

namespace Expr

variable {I tree w}

theorem performAll_fst (args : List Expr) :
    (performAll I tree w args).1 = args.map (truth I tree w) := by
  induction args with
  | nil => rw [performAll, List.map_nil]
  | cons e es ih =>
    rw [performAll]
    exact congrArg (e.truth I tree w :: ·) ih

theorem truth_unary (id : NodeId) (op : UnaryOp) (operand : Expr) :
    (Expr.unary id op operand).truth I tree w = !operand.truth I tree w := by
  rw [truth, perform, truth]

theorem truth_binary (id : NodeId) (op : BinaryOp) (lhs rhs : Expr) :
    (Expr.binary id op lhs rhs).truth I tree w =
      op.onBooleans (lhs.truth I tree w) (rhs.truth I tree w) := by
  rw [truth, perform]
  dsimp only
  split
  next h => exact (BinaryOp.onBooleans_of_settles h _).symm
  next => rfl

theorem truth_conditional (id : NodeId) (condition ifTrue ifFalse : Expr) :
    (Expr.conditional id condition ifTrue ifFalse).truth I tree w =
      if condition.truth I tree w then ifTrue.truth I tree w else ifFalse.truth I tree w := by
  rw [truth, perform]
  dsimp only
  unfold truth
  split <;> rfl

theorem truth_call (id : NodeId) (target : MemberRef) (args : List Expr) :
    (Expr.call id target args).truth I tree w =
      w.result (tree.invoked I target (args.map (truth I tree w))) := by
  rw [truth, perform]
  exact congrArg (fun values ↦ w.result (tree.invoked I target values)) (performAll_fst args)

end Expr

end Fabric
