import Fabric.Proofs.Construction.Evolution
import Fabric.Proofs.Syntax.Nodes

namespace Fabric

theorem Synthesis.bind_eq_ok {α β : Type} {x : Synthesis α} {f : α → Synthesis β} {b : β} :
    x >>= f = .ok b ↔ ∃ a, x = .ok a ∧ f a = .ok b := by
  cases x with
  | error e => exact ⟨nofun, nofun⟩
  | ok a => exact ⟨fun h ↦ ⟨a, rfl, h⟩, fun ⟨_, ha, h⟩ ↦ (Except.ok.inj ha) ▸ h⟩

theorem Synthesis.ok_bind {α β : Type} (a : α) (f : α → Synthesis β) :
    (Except.ok a : Synthesis α) >>= f = f a := rfl

namespace BinaryOp

@[simp]
theorem isShift_hardware (op : BinaryOp) : op.hardware.isShift = op.isShift := by
  cases op <;> rfl

@[simp]
theorem isComparison_hardware (op : BinaryOp) : op.hardware.isComparison = op.isComparison := by
  cases op <;> rfl

@[simp]
theorem isBoolean_hardware (op : BinaryOp) : op.hardware.isBoolean = op.isBoolean := by
  cases op <;> rfl

end BinaryOp

namespace Lowering

variable {l : Lowering} {Γ : Interface}

theorem require_eq_ok {α : Type} {construct : String} {x : Option α} {a : α} :
    l.require construct x = .ok a ↔ x = some a := by
  cases x with
  | none => exact ⟨nofun, nofun⟩
  | some b => exact ⟨fun h ↦ congrArg some (Except.ok.inj h), fun h ↦ congrArg Except.ok (Option.some.inj h)⟩

theorem element?_of_cost {op : Operator} {type : HwType} {constant : Option Int64}
    {cost : Binary64} (h : l.cost op type constant = .ok cost) : type.element? = none := by
  unfold Lowering.cost at h
  obtain ⟨x, hx, -⟩ := Synthesis.bind_eq_ok.1 h
  rw [require_eq_ok] at hx
  cases type with
  | array => exact nomatch hx
  | boolean | signed | unsigned => rfl

theorem unary_eq_ok {op : UnaryOp} {v w : Lowered} (h : l.unary op v = .ok w) :
    ¬(op = .neg ∧ v.type = .boolean) ∧ ∃ cost, w = ⟨.unary op.hardware v.expr, v.type, cost⟩ := by
  unfold unary at h
  split at h
  · exact nomatch h
  next hneg =>
    obtain ⟨cost, -, hw⟩ := Synthesis.bind_eq_ok.1 h
    exact ⟨hneg, _, (Except.ok.inj hw).symm⟩

theorem typed_unary {op : UnaryOp} {v w : Lowered} (h : l.unary op v = .ok w) (hv : v.Typed Γ) :
    w.Typed Γ := by
  obtain ⟨hneg, cost, rfl⟩ := unary_eq_ok h
  refine .unary (fun hop htype ↦ hneg ⟨?_, htype⟩) hv
  cases op with
  | neg => rfl
  | not | logicNot => exact nomatch hop

/-- The operands of an operator meet in a type on which it works. -/
theorem operands_eq_ok {op : BinaryOp} {a b : Lowered} {type : HwType}
    (h : l.operands op a b = .ok type) :
    (if op.isLogical then a.type = .boolean ∧ b.type = .boolean ∧ type = .boolean
      else operandType a.type a.expr.intLiteral? b.type b.expr.intLiteral? = some type) ∧
      (type = .boolean → op.isBoolean) := by
  have hlast {t : HwType} (h : (if t = .boolean ∧ !op.isBoolean then
      l.unsupported "arithmetic on booleans" >>= fun (_ : PUnit) ↦ pure t else pure t) = .ok type) :
      t = type ∧ (type = .boolean → op.isBoolean) := by
    split at h
    · exact nomatch h
    next hb =>
      obtain rfl := Except.ok.inj h
      refine ⟨rfl, fun htype ↦ ?_⟩
      by_contra hop
      exact hb ⟨htype, by simpa using hop⟩
  unfold operands at h
  dsimp only at h
  split at h
  next hlogical =>
    rw [if_pos hlogical]
    split at h
    · exact nomatch h
    next hboth =>
      rw [not_or, not_not, not_not] at hboth
      obtain ⟨rfl, hboolean⟩ := hlast h
      exact ⟨⟨hboth.1, hboth.2, rfl⟩, hboolean⟩
  next hlogical =>
    obtain ⟨-, -, h⟩ := Synthesis.bind_eq_ok.1 h
    obtain ⟨t, ht, h⟩ := Synthesis.bind_eq_ok.1 h
    obtain ⟨rfl, hboolean⟩ := hlast h
    rw [if_neg hlogical]
    exact ⟨require_eq_ok.1 ht, hboolean⟩

theorem checkOperands_of_operands {op : BinaryOp} {a b : Lowered} {type : HwType}
    (h : l.operands op a b = .ok type) (hlogical : ¬op.isLogical) :
    checkOperands a.type a.expr.intLiteral? b.type b.expr.intLiteral? = .ok () := by
  unfold operands at h
  dsimp only at h
  rw [if_neg hlogical] at h
  obtain ⟨⟨⟩, hcheck, -⟩ := Synthesis.bind_eq_ok.1 h
  exact hcheck

/-- A shift leaves its operands as they are, and another operator converts them to one type. -/
theorem binary_eq_ok {op : BinaryOp} {a b w : Lowered} (h : l.binary op a b = .ok w) :
    (op.isShift ∧ ∃ cost, w = ⟨.binary op.hardware a.expr b.expr a.type, a.type, cost⟩) ∨
      (¬op.isShift ∧ ∃ type cost, l.operands op a b = .ok type ∧
        let result := if op.isComparison then .boolean else type
        w = ⟨.binary op.hardware (a.coerce type) (b.coerce type) result, result, cost⟩) := by
  unfold binary at h
  split at h
  next hshift =>
    obtain ⟨cost, -, hw⟩ := Synthesis.bind_eq_ok.1 h
    exact .inl ⟨hshift, _, (Except.ok.inj hw).symm⟩
  next hshift =>
    obtain ⟨type, htype, h⟩ := Synthesis.bind_eq_ok.1 h
    obtain ⟨cost, -, h⟩ := Synthesis.bind_eq_ok.1 h
    obtain ⟨-, -, h⟩ := Synthesis.bind_eq_ok.1 h
    obtain ⟨-, -, hw⟩ := Synthesis.bind_eq_ok.1 h
    exact .inr ⟨hshift, type, _, htype, (Except.ok.inj hw).symm⟩

theorem typed_binary {op : BinaryOp} {a b w : Lowered} (h : l.binary op a b = .ok w)
    (ha : a.Typed Γ) (hb : b.Typed Γ) : w.Typed Γ := by
  obtain ⟨hshift, cost, rfl⟩ | ⟨hshift, type, cost, htype, rfl⟩ := binary_eq_ok h
  · exact .shift (by simpa using hshift) ha hb
  · have hboolean := (operands_eq_ok htype).2
    unfold Lowered.Typed
    dsimp only
    split
    next hcompare =>
      exact .compare (by simpa using hcompare) (by simpa using hboolean) (ha.coerce type)
        (hb.coerce type)
    next hcompare =>
      exact .combine (by simpa using hshift) (by simpa using hcompare) (by simpa using hboolean)
        (ha.coerce type) (hb.coerce type)

theorem element_eq_ok {a i w : Lowered} (h : l.element a i = .ok w) :
    ∃ type cost, a.type.element? = some type ∧ i.type.element? = none ∧
      w = ⟨.index a.expr i.expr, type, cost⟩ := by
  unfold element at h
  obtain ⟨type, htype, h⟩ := Synthesis.bind_eq_ok.1 h
  obtain ⟨cost, hcost, hw⟩ := Synthesis.bind_eq_ok.1 h
  exact ⟨type, _, require_eq_ok.1 htype, element?_of_cost hcost, (Except.ok.inj hw).symm⟩

theorem typed_element {a i w : Lowered} (h : l.element a i = .ok w) (ha : a.Typed Γ)
    (hi : i.Typed Γ) : w.Typed Γ := by
  obtain ⟨type, cost, htype, hindex, rfl⟩ := element_eq_ok h
  unfold Lowered.Typed at ha
  cases hat : a.type with
  | array element length =>
    rw [hat] at ha htype
    obtain rfl := Option.some.inj htype
    exact .index ha hi hindex
  | boolean | signed | unsigned => simp [hat, HwType.element?] at htype

theorem typed_ofLiteral (x : Literal) : (Lowered.ofLiteral x).Typed Γ := by
  cases x with
  | bool value => exact .bool value
  | int value width signed => exact .int value _

theorem typed_lookup {d : Draft} {name : String} {b : Binding} (h : l.lookup d name = .ok b)
    (hs : d.Scoped Γ) : b.Typed Γ :=
  hs.frame.locals (name, b) (mem_of_lookup (require_eq_ok.1 h))

end Lowering

structure Draft.Evaluates (Γ : Interface) (d : Draft) (v : Lowered) (d' : Draft) : Prop where
  opened : d'.isClosed = false
  evolves : Evolves.Plainly Γ (d.Scoped Γ) d d' (d'.Scoped Γ ∧ v.Typed Γ)

namespace Draft.Evaluates

variable {Γ : Interface} {d d' d'' : Draft} {u v w : Lowered}

theorem here (ho : d.isClosed = false) (hv : d.Scoped Γ → v.Typed Γ) : d.Evaluates Γ v d :=
  ⟨ho, .refl d fun hs ↦ ⟨hs, hv hs⟩⟩

theorem map (h : d.Evaluates Γ v d') (hw : v.Typed Γ → w.Typed Γ) : d.Evaluates Γ w d' :=
  ⟨h.opened, h.evolves.conseq id fun _ ⟨hs, hv⟩ ↦ ⟨hs, hw hv⟩⟩

theorem pair (h : d.Evaluates Γ v d') (h' : d'.Evaluates Γ w d'')
    (hu : v.Typed Γ → w.Typed Γ → u.Typed Γ) : d.Evaluates Γ u d'' :=
  ⟨h'.opened, h.evolves.seq h'.evolves (fun _ h ↦ h.1) fun _ hv hw ↦ ⟨hw.1, hu hv.2 hw.2⟩⟩

end Draft.Evaluates

def Binding.lowered : Binding → Lowered
  | .variable name type => .ofVariable name type
  | .constant value type => .free value type

/-- An expression is lowered from one draft to another. An expression that has a result is read from
it; the other cases are those of an expression that has none. -/
inductive Lowering.Translates (l : Lowering) : Expr → Draft → Lowered → Draft → Prop
  | known {e : Expr} {d : Draft} {v : Lowered} : d.result? e.id = some (some v) →
      Translates l e d (.free v.expr v.type) d
  | literal {d : Draft} {id : NodeId} {value : Literal} : d.result? id = none →
      Translates l (.literal id value) d (.ofLiteral value) d
  | getLocal {d : Draft} {id : NodeId} {name : String} {b : Binding} : d.result? id = none →
      l.lookup d name = .ok b → Translates l (.getLocal id name) d b.lowered d
  | getParameter {d : Draft} {id : NodeId} {name : String} {b : Binding} : d.result? id = none →
      l.lookup d name = .ok b → Translates l (.getParameter id name) d b.lowered d
  | unary {d d₁ : Draft} {id : NodeId} {op : UnaryOp} {operand : Expr} {v w : Lowered} :
      d.result? id = none → Translates l operand d v d₁ → l.unary op v = .ok w →
      Translates l (.unary id op operand) d w d₁
  | binary {d d₁ d₂ : Draft} {id : NodeId} {op : BinaryOp} {lhs rhs : Expr} {a b w : Lowered} :
      d.result? id = none → Translates l lhs d a d₁ → Translates l rhs d₁ b d₂ →
      l.binary op a b = .ok w → Translates l (.binary id op lhs rhs) d w d₂
  | newArray {d : Draft} {id : NodeId} {element : TypeRef} {length : Expr} {type : HwType} :
      d.result? id = none → l.newArrayType element length = .ok type →
      Translates l (.newArray id element length) d (.free (.int 0 type) type) d
  | arrayElement {d d₁ d₂ : Draft} {id : NodeId} {array index : Expr} {a i w : Lowered} :
      d.result? id = none → Translates l array d a d₁ → Translates l index d₁ i d₂ →
      l.element a i = .ok w → Translates l (.arrayElement id array index) d w d₂
  | arrayLength {d : Draft} {id : NodeId} {array : Expr} {element : HwType} {length : UInt32} :
      d.result? id = none → l.infer d array = .ok (.array element length) →
      Translates l (.arrayLength id array) d
        (.free (.int (Int64.ofNat length.toNat) (.signed 32)) (.signed 32)) d
  | conditional {d d₁ d₂ d₃ : Draft} {id : NodeId} {condition ifTrue ifFalse : Expr}
      {c a b : Lowered} {type : HwType} : d.result? id = none →
      l.infer d (.conditional id condition ifTrue ifFalse) = .ok type →
      Translates l condition d c d₁ → Translates l ifTrue d₁ a d₂ → Translates l ifFalse d₂ b d₃ →
      a.checkCoerce type = .ok () → b.checkCoerce type = .ok () →
      Translates l (.conditional id condition ifTrue ifFalse) d
        (.ofVariable (d₃.temporary type "conditional value").1 type)
        ((d₃.temporary type "conditional value").2.emit (.branch (c.coerce .boolean)
          [.setVariable (d₃.temporary type "conditional value").1 (a.coerce type)]
          [.setVariable (d₃.temporary type "conditional value").1 (b.coerce type)])
          (c.cost + max a.cost b.cost))
  | cast {d d₁ : Draft} {id : NodeId} {type : TypeRef} {operand : Expr} {v : Lowered}
      {target : HwType} : d.result? id = none → type.scalarHardware? = some target →
      Translates l operand d v d₁ → v.checkCoerce target = .ok () →
      Translates l (.cast id type operand) d ⟨v.coerce target, target, v.cost⟩ d₁

namespace Lowering

variable {l : Lowering} {Γ : Interface} {d d' : Draft} {v : Lowered}

theorem isEvaluated_of_none {e : Expr} (hr : d.result? e.id = none) : d.isEvaluated e = false := by
  unfold Draft.isEvaluated
  rw [hr]
  rfl

theorem translates_of_result {e : Expr} {r : Option Lowered} (hr : d.result? e.id = some r)
    (h : l.expr e d = .ok (v, d')) : l.Translates e d v d' := by
  unfold expr at h
  simp only [hr] at h
  cases r with
  | none => exact nomatch h
  | some value =>
    obtain ⟨rfl, rfl⟩ := Prod.mk.inj (Except.ok.inj h)
    exact .known hr

theorem translates_lookup {name : String}
    (h : (do
      match ← l.lookup d name with
      | .variable name type => return (.ofVariable name type, d)
      | .constant value type => return (.free value type, d)) = Except.ok (v, d')) :
    ∃ b, l.lookup d name = .ok b ∧ v = b.lowered ∧ d' = d := by
  obtain ⟨b, hb, h⟩ := Synthesis.bind_eq_ok.1 h
  refine ⟨b, hb, ?_⟩
  cases b with
  | «variable» x type =>
    obtain ⟨rfl, rfl⟩ := Prod.mk.inj (Except.ok.inj h)
    exact ⟨rfl, rfl⟩
  | constant value type =>
    obtain ⟨rfl, rfl⟩ := Prod.mk.inj (Except.ok.inj h)
    exact ⟨rfl, rfl⟩

theorem translates_of_expr {e : Expr} (h : l.expr e d = .ok (v, d')) : l.Translates e d v d' := by
  -- The induction is on expressions that have no result yet; `hall` adds those that have one.
  have hall {e : Expr} (hnone : ∀ {d d' : Draft} {v : Lowered}, d.result? e.id = none →
      l.expr e d = .ok (v, d') → l.Translates e d v d') {d d' : Draft} {v : Lowered}
      (h : l.expr e d = .ok (v, d')) : l.Translates e d v d' := by
    cases hr : d.result? e.id with
    | none => exact hnone hr h
    | some r => exact translates_of_result hr h
  refine hall (fun {d d' v} hr h ↦ ?_) h
  clear * - hr h hall
  induction e using Expr.induction generalizing d d' v with
  | literal id value =>
    rw [expr, hr] at h
    obtain ⟨rfl, rfl⟩ := Prod.mk.inj (Except.ok.inj h)
    exact .literal hr
  | getLocal id name =>
    rw [expr, hr] at h
    obtain ⟨b, hb, rfl, rfl⟩ := translates_lookup h
    exact .getLocal hr hb
  | getParameter id name =>
    rw [expr, hr] at h
    obtain ⟨b, hb, rfl, rfl⟩ := translates_lookup h
    exact .getParameter hr hb
  | getField | call =>
    rw [expr, hr] at h
    exact nomatch h
  | unary id op operand ih =>
    rw [expr, hr] at h
    obtain ⟨⟨x, d₁⟩, hx, h⟩ := Synthesis.bind_eq_ok.1 h
    obtain ⟨w, hw, h⟩ := Synthesis.bind_eq_ok.1 h
    obtain ⟨rfl, rfl⟩ := Prod.mk.inj (Except.ok.inj h)
    exact .unary hr (hall ih hx) hw
  | binary id op lhs rhs ihl ihr =>
    rw [expr, hr] at h
    obtain ⟨⟨a, d₁⟩, ha, h⟩ := Synthesis.bind_eq_ok.1 h
    obtain ⟨⟨b, d₂⟩, hb, h⟩ := Synthesis.bind_eq_ok.1 h
    obtain ⟨w, hw, h⟩ := Synthesis.bind_eq_ok.1 h
    obtain ⟨rfl, rfl⟩ := Prod.mk.inj (Except.ok.inj h)
    exact .binary hr (hall ihl ha) (hall ihr hb) hw
  | newArray id element length =>
    rw [expr, hr] at h
    obtain ⟨type, htype, h⟩ := Synthesis.bind_eq_ok.1 h
    obtain ⟨rfl, rfl⟩ := Prod.mk.inj (Except.ok.inj h)
    exact .newArray hr htype
  | arrayElement id array index iha ihi =>
    rw [expr, hr] at h
    obtain ⟨⟨a, d₁⟩, ha, h⟩ := Synthesis.bind_eq_ok.1 h
    obtain ⟨⟨i, d₂⟩, hi, h⟩ := Synthesis.bind_eq_ok.1 h
    obtain ⟨w, hw, h⟩ := Synthesis.bind_eq_ok.1 h
    obtain ⟨rfl, rfl⟩ := Prod.mk.inj (Except.ok.inj h)
    exact .arrayElement hr (hall iha ha) (hall ihi hi) hw
  | arrayLength id array =>
    rw [expr, hr] at h
    obtain ⟨type, htype, h⟩ := Synthesis.bind_eq_ok.1 h
    cases type with
    | array element length =>
      obtain ⟨rfl, rfl⟩ := Prod.mk.inj (Except.ok.inj h)
      exact .arrayLength hr htype
    | boolean | signed | unsigned => exact nomatch h
  | conditional id condition ifTrue ifFalse ihc iht ihf =>
    rw [expr, hr] at h
    obtain ⟨type, htype, h⟩ := Synthesis.bind_eq_ok.1 h
    obtain ⟨⟨c, d₁⟩, hc, h⟩ := Synthesis.bind_eq_ok.1 h
    obtain ⟨⟨a, d₂⟩, ha, h⟩ := Synthesis.bind_eq_ok.1 h
    obtain ⟨⟨b, d₃⟩, hb, h⟩ := Synthesis.bind_eq_ok.1 h
    obtain ⟨⟨⟩, hac, h⟩ := Synthesis.bind_eq_ok.1 h
    obtain ⟨⟨⟩, hbc, h⟩ := Synthesis.bind_eq_ok.1 h
    obtain ⟨rfl, rfl⟩ := Prod.mk.inj (Except.ok.inj h)
    exact .conditional hr htype (hall ihc hc) (hall iht ha) (hall ihf hb) hac hbc
  | cast id type operand ih =>
    rw [expr, hr] at h
    obtain ⟨target, htarget, h⟩ := Synthesis.bind_eq_ok.1 h
    obtain ⟨⟨x, d₁⟩, hx, h⟩ := Synthesis.bind_eq_ok.1 h
    obtain ⟨⟨⟩, hcheck, h⟩ := Synthesis.bind_eq_ok.1 h
    obtain ⟨rfl, rfl⟩ := Prod.mk.inj (Except.ok.inj h)
    exact .cast hr (require_eq_ok.1 htarget) (hall ih hx) hcheck

theorem Translates.expr {e : Expr} (h : l.Translates e d v d') : l.expr e d = .ok (v, d') := by
  induction h with
  | known hr =>
    unfold Lowering.expr
    simp only [hr]
  | literal hr =>
    rw [Lowering.expr, Expr.id, hr]
  | @getLocal d id name b hr hb | @getParameter d id name b hr hb =>
    rw [Lowering.expr, Expr.id, hr]
    dsimp only
    rw [hb]
    cases b <;> rfl
  | unary hr _ hw ih =>
    rw [Lowering.expr, Expr.id, hr]
    dsimp only
    rw [ih, Synthesis.ok_bind, hw]
    rfl
  | binary hr _ _ hw iha ihb | arrayElement hr _ _ hw iha ihb =>
    rw [Lowering.expr, Expr.id, hr]
    dsimp only
    rw [iha, Synthesis.ok_bind, ihb, Synthesis.ok_bind, hw]
    rfl
  | newArray hr htype | arrayLength hr htype =>
    rw [Lowering.expr, Expr.id, hr]
    dsimp only
    rw [htype]
    rfl
  | conditional hr htype _ _ _ hac hbc ihc iha ihb =>
    rw [Lowering.expr, Expr.id, hr]
    dsimp only
    rw [htype, Synthesis.ok_bind, ihc, Synthesis.ok_bind, iha, Synthesis.ok_bind, ihb,
      Synthesis.ok_bind, hac, Synthesis.ok_bind, hbc]
    rfl
  | cast hr htarget _ hcheck ih =>
    rw [Lowering.expr, Expr.id, hr]
    dsimp only
    rw [require_eq_ok.2 htarget, Synthesis.ok_bind, ih, Synthesis.ok_bind, hcheck]
    rfl

/-- Lowering an expression is what the relation says. -/
theorem expr_eq_ok {e : Expr} : l.expr e d = .ok (v, d') ↔ l.Translates e d v d' :=
  ⟨translates_of_expr, Translates.expr⟩

theorem conditional_evaluates {d₁ d₂ d₃ : Draft} {c a b : Lowered} (type : HwType)
    (hc : d.Evaluates Γ c d₁) (ha : d₁.Evaluates Γ a d₂) (hb : d₂.Evaluates Γ b d₃)
    (comment : String) (cost : Binary64) :
    d.Evaluates Γ (.ofVariable (d₃.temporary type comment).1 type)
      ((d₃.temporary type comment).2.emit (.branch (c.coerce .boolean)
        [.setVariable (d₃.temporary type comment).1 (a.coerce type)]
        [.setVariable (d₃.temporary type comment).1 (b.coerce type)]) cost) := by
  have ho : (d₃.temporary type comment).2.isClosed = false := hb.opened
  have hvalues : Evolves.Plainly Γ (d.Scoped Γ) d d₃
      (d₃.Scoped Γ ∧ c.Typed Γ ∧ a.Typed Γ ∧ b.Typed Γ) :=
    hc.evolves.seq (ha.evolves.seq hb.evolves (fun _ h ↦ h.1) fun _ hav hbv ↦ (⟨hav.2, hbv⟩ :
      a.Typed Γ ∧ d₃.Scoped Γ ∧ b.Typed Γ)) (fun _ h ↦ h.1)
      fun _ hcv h ↦ ⟨h.2.1, hcv.2, h.1, h.2.2⟩
  have htemp := hvalues.seq (d₃.evolves_temporary type comment) (fun _ h ↦ h.1)
    fun _ h ht ↦ And.intro h.2 ht
  refine ⟨Draft.isClosed_emit ho _ cost, htemp.seq (Draft.evolves_emit ho ?_ cost) ?_ ?_⟩
  · intro target slot
    rfl
  · rintro - ⟨⟨hcv, hav, hbv⟩, hs, hd⟩
    refine ⟨hs, hcv.coerce _, ?_, ?_⟩
    · exact ⟨HwStmt.typed_setVariable hd (hav.coerce _), trivial⟩
    · exact ⟨HwStmt.typed_setVariable hd (hbv.coerce _), trivial⟩
  · rintro - ⟨-, -, hd⟩ hs
    exact ⟨hs, .variable hd⟩

/-- An expression is lowered to a value of the type that it is given. -/
theorem expr_evaluates {e : Expr} (h : l.expr e d = .ok (v, d')) (ho : d.isClosed = false) :
    d.Evaluates Γ v d' := by
  have hlookup {d : Draft} {name : String} {b : Binding} (hb : l.lookup d name = .ok b)
      (ho : d.isClosed = false) : d.Evaluates Γ b.lowered d := by
    cases b with
    | «variable» x type => exact .here ho fun hs ↦ .variable (typed_lookup hb hs)
    | constant value type => exact .here ho fun hs ↦ typed_lookup hb hs
  rw [expr_eq_ok] at h
  induction h with
  | @known e d v hr => exact .here ho fun hs ↦ hs.results _ v (mem_of_lookup hr)
  | literal => exact .here ho fun _ ↦ typed_ofLiteral _
  | getLocal _ hb | getParameter _ hb => exact hlookup hb ho
  | unary _ _ hw ih => exact (ih ho).map (typed_unary hw)
  | binary _ _ _ hw iha ihb =>
    have hea := iha ho
    exact hea.pair (ihb hea.opened) (typed_binary hw)
  | newArray => exact .here ho fun _ ↦ .int 0 _
  | arrayElement _ _ _ hw iha ihi =>
    have hea := iha ho
    exact hea.pair (ihi hea.opened) (typed_element hw)
  | arrayLength => exact .here ho fun _ ↦ .int _ _
  | conditional _ _ _ _ _ _ _ ihc iha ihb =>
    have hec := ihc ho
    have hea := iha hec.opened
    exact conditional_evaluates _ hec hea (ihb hea.opened) _ _
  | cast _ _ _ _ ih => exact (ih ho).map fun hv ↦ hv.coerce _

end Lowering

end Fabric
