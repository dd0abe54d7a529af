import Fabric.Proofs.Syntax.Nodes
import Fabric.Resolution.Fold

namespace Fabric

universe u

inductive Value (A : Type u)
  | literal (value : Literal)
  | object (object : A)

variable {A : Type u}

namespace Value

def literal? : Value A → Option Literal
  | .literal l => some l
  | .object _ => none

def unary (op : UnaryOp) (v : Value A) : Option (Value A) :=
  (v.literal?.bind (Literal.evalUnary op)).map .literal

def binary (op : BinaryOp) (v w : Value A) : Option (Value A) :=
  (v.literal?.bind fun a ↦ w.literal?.bind fun b ↦
    (Literal.evalBinary op a b).toOption.join).map .literal

def cast (type : TypeRef) (v : Value A) : Option (Value A) :=
  (v.literal?.bind (Literal.evalCast type)).map .literal

def shortcut : BinaryOp → Value A → Option (Value A)
  | .logicAnd, .literal (.bool false) => some (.literal (.bool false))
  | .logicOr, .literal (.bool true) => some (.literal (.bool true))
  | _, _ => none

def choose (ifTrue ifFalse : Option (Value A)) (v : Value A) : Option (Value A) :=
  (v.literal?.bind Literal.asBool).bind fun b ↦ if b then ifTrue else ifFalse

end Value

/-- What an expression refers to. -/
structure Environment (A : Type u) where
  locals : String → Option (Value A)
  parameters : String → Option (Value A)
  fields : FieldRef → Option (Value A)
  call : MemberRef → List (Value A) → Option (Value A)
  newArray : TypeRef → Value A → Option (Value A)
  element : Value A → Value A → Option (Value A)
  length : Value A → Option (Value A)

/-- An environment in which constants have their values. -/
structure Environment.Agrees (env : Environment A) (fields locals : Constants) : Prop where
  locals {name : String} {l : Literal} :
    locals.lookup name = some l → env.locals name = some (.literal l)
  fields {field : FieldRef} {l : Literal} :
    fields.lookup field.qualified = some l → env.fields field = some (.literal l)

namespace Expr

variable (env : Environment A)

mutual

def value : Expr → Option (Value A)
  | .literal _ l => some (.literal l)
  | .getLocal _ name => env.locals name
  | .getParameter _ name => env.parameters name
  | .getField _ field => env.fields field
  | .unary _ op operand => operand.value.bind (Value.unary op)
  | .binary _ op lhs rhs =>
    lhs.value.bind fun a ↦ (a.shortcut op).or (rhs.value.bind (a.binary op))
  | .call _ target args => (values args).bind (env.call target)
  | .newArray _ element length => length.value.bind (env.newArray element)
  | .arrayElement _ array index => array.value.bind fun a ↦ index.value.bind (env.element a)
  | .arrayLength _ array => array.value.bind env.length
  | .conditional _ condition ifTrue ifFalse =>
    condition.value.bind (Value.choose ifTrue.value ifFalse.value)
  | .cast _ type operand => operand.value.bind (Value.cast type)

def values : List Expr → Option (List (Value A))
  | [] => some []
  | e :: es => e.value.bind fun v ↦ (values es).map (v :: ·)

end

attribute [grind =] value values

variable {env} {fields locals : Constants}

theorem value_of_asLiteral {e : Expr} {l : Literal} (h : e.asLiteral = some l) :
    e.value env = some (.literal l) := by
  cases e with
  | literal id value =>
    cases h
    rw [Expr.value]
  | _ => cases h

theorem shortcut_eq_some {op : BinaryOp} {a : Literal} {v : Value A}
    (h : (Value.literal a).shortcut op = some v) :
    v = .literal a ∧ (op = .logicAnd ∧ a = .bool false ∨ op = .logicOr ∧ a = .bool true) := by
  cases op with
  | logicAnd | logicOr =>
    cases a with
    | bool b => cases b <;> simp_all [Value.shortcut]
    | int => cases h
  | _ => cases h

/-- A left operand that decides is the value of the operator for every right operand. -/
theorem eq_of_shortcut {op : BinaryOp} {a b l : Literal} {v : Value A}
    (hs : (Value.literal a).shortcut op = some v)
    (h : (Literal.evalBinary op a b).toOption.join = some l) : v = .literal l := by
  obtain ⟨rfl, ⟨rfl, rfl⟩ | ⟨rfl, rfl⟩⟩ := shortcut_eq_some hs
  all_goals
    cases b with
    | bool => simpa [Literal.evalBinary, Literal.evalBool, Except.toOption] using h
    | int => cases h

theorem value_binary_literals {id : NodeId} {op : BinaryOp} {lhs rhs : Expr} {a b l : Literal}
    (ha : lhs.asLiteral = some a) (hb : rhs.asLiteral = some b)
    (h : (Literal.evalBinary op a b).toOption.join = some l) :
    (Expr.binary id op lhs rhs).value env = some (.literal l) := by
  rw [Expr.value, value_of_asLiteral ha, value_of_asLiteral hb]
  cases hs : (Value.literal a : Value A).shortcut op with
  | none => simp [hs, Value.binary, Value.literal?, h]
  | some v => simp [hs, eq_of_shortcut hs h]

theorem value_binary_shortcut {id : NodeId} {op : BinaryOp} {lhs rhs : Expr} {a l : Literal}
    (ha : lhs.asLiteral = some a) (h : (Value.literal a : Value A).shortcut op = some (.literal l)) :
    (Expr.binary id op lhs rhs).value env = some (.literal l) := by
  rw [Expr.value, value_of_asLiteral ha]
  simp [h]

theorem value_of_foldLiteral (h : env.Agrees fields locals) {e : Expr} {l : Literal}
    (hl : e.foldLiteral fields locals = some l) : e.value env = some (.literal l) := by
  cases e with
  | getLocal id name => exact h.locals hl
  | getField id field => exact h.fields hl
  | unary id op operand =>
    obtain ⟨a, ha, hop⟩ := Option.bind_eq_some_iff.1 hl
    simp [Expr.value, value_of_asLiteral ha, Value.unary, Value.literal?, hop]
  | cast id type operand =>
    obtain ⟨a, ha, hop⟩ := Option.bind_eq_some_iff.1 hl
    simp [Expr.value, value_of_asLiteral ha, Value.cast, Value.literal?, hop]
  | binary id op lhs rhs =>
    simp only [foldLiteral] at hl
    split at hl
    next a b ha hb => exact value_binary_literals ha hb hl
    next ha _ =>
      obtain ⟨rfl, heq⟩ := Option.ite_none_right_eq_some.1 hl
      cases heq
      exact value_binary_shortcut ha rfl
    next ha _ =>
      obtain ⟨rfl, heq⟩ := Option.ite_none_right_eq_some.1 hl
      cases heq
      exact value_binary_shortcut ha rfl
    next => cases hl
  | _ => cases hl

theorem value_foldStep (h : env.Agrees fields locals) {e e' : Expr}
    (he : e.foldStep fields locals = some e') : e'.value env = e.value env := by
  cases e with
  | conditional id condition ifTrue ifFalse =>
    simp only [foldStep] at he
    split at he
    next hc =>
      cases he
      simp [Expr.value, value_of_asLiteral hc, Value.choose, Value.literal?, Literal.asBool]
    next hc =>
      cases he
      simp [Expr.value, value_of_asLiteral hc, Value.choose, Value.literal?, Literal.asBool]
    next => cases he
  | _ =>
    rw [foldStep] at he
    · obtain ⟨l, hl, rfl⟩ := Option.map_eq_some_iff.1 he
      rw [value_of_foldLiteral h hl, Expr.value]
    · intro _ _ _ _ hc
      cases hc

theorem value_replace (h : env.Agrees fields locals) (e : Expr) (n : Nat) :
    (e.replace (foldStep fields locals) n).1.value env = e.value env := by
  cases he : e.foldStep fields locals with
  | none => simp [replace, he]
  | some e' => simp [replace, he, value_foldStep h he]

theorem values_simplifyList {f : Expr → Option Expr} {es : List Expr}
    (h : ∀ e ∈ es, (e.simplify f).1.value env = e.value env) :
    values env (simplifyList f es).1 = values env es := by
  induction es with
  | nil => rw [simplifyList]
  | cons e es ih =>
    rw [List.forall_mem_cons] at h
    simp only [simplifyList, values]
    rw [h.1, ih h.2]

theorem value_simplify (h : env.Agrees fields locals) (e : Expr) :
    (e.simplify (foldStep fields locals)).1.value env = e.value env := by
  -- A node is replaced after its operands, whose values have been kept.
  induction e using Expr.induction with
  | literal | getLocal | getParameter | getField =>
    rw [simplify]
    exact value_replace h _ _
  | unary id op operand ih =>
    rw [simplify, value_replace h, Expr.value, Expr.value, ih]
  | binary id op lhs rhs ihl ihr =>
    rw [simplify, value_replace h, Expr.value, Expr.value, ihl, ihr]
  | call id target args ih =>
    rw [simplify, value_replace h, Expr.value, Expr.value, values_simplifyList ih]
  | newArray id element length ih =>
    rw [simplify, value_replace h, Expr.value, Expr.value, ih]
  | arrayElement id array index iha ihi =>
    rw [simplify, value_replace h, Expr.value, Expr.value, iha, ihi]
  | arrayLength id array ih =>
    rw [simplify, value_replace h, Expr.value, Expr.value, ih]
  | conditional id condition ifTrue ifFalse ihc iht ihf =>
    rw [simplify, value_replace h, Expr.value, Expr.value, ihc, iht, ihf]
  | cast id type operand ih =>
    rw [simplify, value_replace h, Expr.value, Expr.value, ih]

end Expr

end Fabric
