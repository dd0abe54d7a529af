import Fabric.Lowering.Operand
import Fabric.Proofs.Machine.Basic
import Fabric.Proofs.Syntax.Nodes
import Fabric.Syntax.Tree

/-!
What members without calls do. Expressions have types: an operator converts its operands to the type
in which they meet, and an assignment converts to the type of the variable. A statement changes the
store and says where control goes. The rounds of a loop are bounded in a run, so that every run ends;
a statement terminates if some bound is enough for it.
-/

namespace Fabric

/-- The types of the variables and of the result of a member. -/
structure Scope where
  type? : String → Option HwType
  result : Option HwType

/-- A value with its type. A constant can take another type. -/
structure Operand (V : Type) where
  value : V
  type : HwType
  constant : Option Int64

/-- The variables, and the result that was given last. -/
structure Store (V : Type) where
  values : String → V
  result : Option V

inductive Outcome
  | normal
  | broke
  | continued
  | returned
deriving DecidableEq, Repr

variable {V : Type} (I : Interpretation V)

namespace Operand

def convert (v : Operand V) (target : HwType) : Operand V :=
  if v.type = target then v
  else
    match v.constant.filter fun n ↦ target.represents n with
    | some n => ⟨I.int n target, target, some n⟩
    | none => ⟨I.resize v.value v.type target, target, none⟩

def ofLiteral : Literal → Operand V
  | .bool value => ⟨I.bool value, .boolean, none⟩
  | .int value width signed => ⟨I.int value (.scalar width signed), .scalar width signed, some value⟩

def unary (op : UnaryOp) (v : Operand V) : Option (Operand V) :=
  if op = .neg ∧ v.type = .boolean then none
  else some ⟨I.unary op.hardware v.value, v.type, none⟩

def meet (op : BinaryOp) (a b : Operand V) : Option HwType :=
  if op.isLogical then if a.type = .boolean ∧ b.type = .boolean then some .boolean else none
  else (operandType a.type a.constant b.type b.constant).filter fun type ↦
    type ≠ .boolean ∨ op.isBoolean

def binary (op : BinaryOp) (a b : Operand V) : Option (Operand V) :=
  if op.isShift then some ⟨I.binary op.hardware a.value b.value a.type, a.type, none⟩
  else
    (meet op a b).map fun type ↦
      let result := if op.isComparison then .boolean else type
      ⟨I.binary op.hardware (a.convert I type).value (b.convert I type).value result, result, none⟩

end Operand

def Expr.denote (Γ : Scope) (values : String → V) : Expr → Option (Operand V)
  | .literal _ value => some (.ofLiteral I value)
  | .getLocal _ name | .getParameter _ name =>
    (Γ.type? name).map fun type ↦ ⟨values name, type, none⟩
  | .unary _ op operand => (operand.denote Γ values).bind (Operand.unary I op)
  | .binary _ op lhs rhs =>
    (lhs.denote Γ values).bind fun a ↦ (rhs.denote Γ values).bind (Operand.binary I op a)
  | .cast _ type operand =>
    type.scalarHardware?.bind fun target ↦
      (operand.denote Γ values).map fun v ↦ v.convert I target
  | _ => none

def Expr.denoteAs (Γ : Scope) (type : HwType) (e : Expr) (values : String → V) : Option V :=
  (e.denote I Γ values).map fun v ↦ (v.convert I type).value

namespace Store

def set (σ : Store V) (name : String) (value : V) : Store V :=
  { σ with values := fun x ↦ if x = name then value else σ.values x }

def assign (Γ : Scope) (name : String) (e : Expr) (σ : Store V) : Option (Store V) :=
  (Γ.type? name).bind fun type ↦ (e.denoteAs I Γ type σ.values).map (σ.set name)

def give (Γ : Scope) (value : Option Expr) (σ : Store V) : Option (Store V) :=
  match Γ.result, value with
  | none, _ => some σ
  | some type, some e => (e.denoteAs I Γ type σ.values).map fun v ↦ { σ with result := some v }
  | some _, none => none

def holds (Γ : Scope) (e : Expr) (σ : Store V) : Option Bool :=
  (e.denoteAs I Γ .boolean σ.values).map I.truth

def goesOn (Γ : Scope) (condition : Option Expr) (σ : Store V) : Option Bool :=
  match condition with
  | none => some true
  | some e => σ.holds I Γ e

def andThen (next : Store V → Option (Outcome × Store V)) (result : Option (Outcome × Store V)) :
    Option (Outcome × Store V) :=
  match result with
  | some (.normal, σ) => next σ
  | result => result

def rounds (goesOn : Store V → Option Bool) (body step : Store V → Option (Outcome × Store V)) :
    Nat → Store V → Option (Outcome × Store V)
  | 0, _ => none
  | n + 1, σ =>
    match goesOn σ with
    | none => none
    | some false => some (.normal, σ)
    | some true =>
      match body σ with
      | none => none
      | some (.broke, σ) => some (.normal, σ)
      | some (.returned, σ) => some (.returned, σ)
      | some (_, σ) => andThen (rounds goesOn body step n) (step σ)

end Store

namespace Stmt

variable (Γ : Scope) (limit : Nat)

mutual

/-- Runs a statement in which every loop makes less than `limit` rounds at a time. -/
def run : Stmt → Store V → Option (Outcome × Store V)
  | .declare _ _ _ none, σ => some (.normal, σ)
  | .declare _ name _ (some e), σ => (σ.assign I Γ name e).map fun σ ↦ (.normal, σ)
  | .assign _ (.toLocal name) e, σ | .assign _ (.toParameter name) e, σ =>
    (σ.assign I Γ name e).map fun σ ↦ (.normal, σ)
  | .branch _ condition thenBranch elseBranch, σ =>
    match σ.holds I Γ condition with
    | none => none
    | some true => run thenBranch σ
    | some false => runOption elseBranch σ
  | .whileLoop _ condition body, σ =>
    Store.rounds (Store.goesOn I Γ (some condition)) (run body) (fun σ ↦ some (.normal, σ)) limit σ
  | .forLoop _ init condition step body, σ =>
    Store.andThen
      (Store.rounds (Store.goesOn I Γ condition) (run body) (runOption step) limit)
      (runOption init σ)
  | .ret _ value, σ => (σ.give I Γ value).map fun σ ↦ (.returned, σ)
  | .block _ stmts, σ => runList stmts σ
  | .breakLoop _, σ => some (.broke, σ)
  | .continueLoop _, σ => some (.continued, σ)
  | _, _ => none

def runOption : Option Stmt → Store V → Option (Outcome × Store V)
  | none, σ => some (.normal, σ)
  | some s, σ => run s σ

def runList : List Stmt → Store V → Option (Outcome × Store V)
  | [], σ => some (.normal, σ)
  | s :: ss, σ => Store.andThen (runList ss) (run s σ)

end

end Stmt

/-- What expressions with calls mean: the value of one in a type, and whether one that is evaluated
for its calls ends. -/
structure Meaning (V : Type) where
  value : Expr → HwType → Store V → Option V
  effect : Expr → Store V → Option Unit

def Meaning.simple (Γ : Scope) : Meaning V where
  value e type σ := e.denoteAs I Γ type σ.values
  effect _ _ := some ()

namespace Store

variable (Γ : Scope) (E : Meaning V)

def assignIn (name : String) (e : Expr) (σ : Store V) : Option (Store V) :=
  (Γ.type? name).bind fun type ↦ (E.value e type σ).map (σ.set name)

/-- Gives the result of the member, if it has one. Otherwise the expression is evaluated for its
calls. -/
def giveIn (value : Option Expr) (σ : Store V) : Option (Store V) :=
  match Γ.result, value with
  | none, none => some σ
  | none, some e => (E.effect e σ).map fun _ ↦ σ
  | some type, some e => (E.value e type σ).map fun v ↦ { σ with result := some v }
  | some _, none => none

end Store

namespace Stmt

variable (Γ : Scope) (E : Meaning V) (limit : Nat)

mutual

/-- Runs a statement with calls, in which every loop makes less than `limit` rounds at a time. There
are no calls in conditions. -/
def runIn : Stmt → Store V → Option (Outcome × Store V)
  | .declare _ _ _ none, σ => some (.normal, σ)
  | .declare _ name _ (some e), σ => (σ.assignIn Γ E name e).map fun σ ↦ (.normal, σ)
  | .assign _ (.toLocal name) e, σ | .assign _ (.toParameter name) e, σ =>
    (σ.assignIn Γ E name e).map fun σ ↦ (.normal, σ)
  | .branch _ condition thenBranch elseBranch, σ =>
    match σ.holds I Γ condition with
    | none => none
    | some true => runIn thenBranch σ
    | some false => runInOption elseBranch σ
  | .whileLoop _ condition body, σ =>
    Store.rounds (Store.goesOn I Γ (some condition)) (runIn body) (fun σ ↦ some (.normal, σ)) limit σ
  | .forLoop _ init condition step body, σ =>
    Store.andThen
      (Store.rounds (Store.goesOn I Γ condition) (runIn body) (runInOption step) limit)
      (runInOption init σ)
  | .ret _ value, σ => (σ.giveIn Γ E value).map fun σ ↦ (.returned, σ)
  | .eval _ e, σ => (E.effect e σ).map fun _ ↦ (.normal, σ)
  | .block _ stmts, σ => runInList stmts σ
  | .breakLoop _, σ => some (.broke, σ)
  | .continueLoop _, σ => some (.continued, σ)
  | _, _ => none

def runInOption : Option Stmt → Store V → Option (Outcome × Store V)
  | none, σ => some (.normal, σ)
  | some s, σ => runIn s σ

def runInList : List Stmt → Store V → Option (Outcome × Store V)
  | [], σ => some (.normal, σ)
  | s :: ss, σ => Store.andThen (runInList ss) (runIn s σ)

end

end Stmt

def Expr.IsSimple (e : Expr) : Prop :=
  ∀ n ∈ e.nodes, match n with
    | .literal _ _ | .getLocal _ _ | .getParameter _ _ | .unary _ _ _ | .binary _ _ _ _
    | .cast _ _ _ => True
    | _ => False

/-- A statement of declarations, assignments, branches, loops and their exits, with scalar variables
and simple expressions. -/
def Stmt.IsSimple (s : Stmt) : Prop :=
  ∀ t ∈ s.nodes, (∀ e ∈ t.exprs, e.IsSimple) ∧ match t with
    | .declare _ _ type _ => type.scalarHardware?.isSome
    | .assign _ (.toField _) _ | .store _ _ _ _ | .eval _ _ | .parallel _ _ _ _ _ => False
    | _ => True

/-- A statement of declarations, assignments, branches, loops and their exits, and of calls, with
scalar variables. Its values are of the one kind, and its conditions of the other. -/
def Stmt.Uses (values conditions : Expr → Prop) (s : Stmt) : Prop :=
  ∀ t ∈ s.nodes, match t with
    | .declare _ _ type init => type.scalarHardware?.isSome ∧ ∀ e ∈ init, values e
    | .assign _ target e => (∀ f, target ≠ .toField f) ∧ values e
    | .branch _ condition _ _ | .whileLoop _ condition _ => conditions condition
    | .forLoop _ _ condition _ _ => ∀ e ∈ condition, conditions e
    | .ret _ value => ∀ e ∈ value, values e
    | .eval _ e => e.isCall ∧ values e
    | .block _ _ | .breakLoop _ | .continueLoop _ => True
    | .store _ _ _ _ | .parallel _ _ _ _ _ => False

def Stmt.locals (s : Stmt) : List (String × TypeRef) :=
  s.nodes.filterMap fun
    | .declare _ name type _ => some (name, type)
    | _ => none

namespace MethodDecl

def locals (m : MethodDecl) : List (String × TypeRef) :=
  m.parameters.map (fun p ↦ (p.name, p.type)) ++ m.body.toList.flatMap Stmt.locals

def scope (m : MethodDecl) : Scope :=
  ⟨fun name ↦ (m.locals.lookup name).bind TypeRef.scalarHardware?, m.returnType.scalarHardware?⟩

/-- A method on scalars without calls, in which different variables have different names. -/
structure IsSimple (m : MethodDecl) : Prop where
  body : ∀ s ∈ m.body, s.IsSimple
  parameters : ∀ p ∈ m.parameters, p.type.scalarHardware?.isSome
  returnType : m.returnType = .void ∨ m.returnType.scalarHardware?.isSome
  names : (m.locals.map Prod.fst).Nodup

structure IsScalar (m : MethodDecl) : Prop where
  parameters : ∀ p ∈ m.parameters, p.type.scalarHardware?.isSome
  returnType : m.returnType = .void ∨ m.returnType.scalarHardware?.isSome
  names : (m.locals.map Prod.fst).Nodup

theorem IsSimple.isScalar {m : MethodDecl} (h : m.IsSimple) : m.IsScalar :=
  ⟨h.parameters, h.returnType, h.names⟩

/-- Runs a method in which every loop makes less than `limit` rounds at a time. -/
def run (limit : Nat) (m : MethodDecl) (arguments : String → V) (σ : Store V) : Option (Store V) :=
  m.body.bind fun s ↦
    (s.run I m.scope limit
      (m.parameters.foldl (fun σ p ↦ σ.set p.name (arguments p.name)) σ)).map Prod.snd

def Ends (m : MethodDecl) (arguments : String → V) (σ σ' : Store V) : Prop :=
  ∃ limit, m.run I limit arguments σ = some σ'

end MethodDecl

end Fabric
