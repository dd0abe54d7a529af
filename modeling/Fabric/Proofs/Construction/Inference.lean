import Fabric.Proofs.Construction.Learning

namespace Fabric

namespace HwType

def IsInteger (t : HwType) : Prop :=
  (∃ width, t = signed width) ∨ ∃ width, t = unsigned width

/-- Types that are the same or both types of integers. -/
def Near (a b : HwType) : Prop :=
  a = b ∨ a.IsInteger ∧ b.IsInteger

namespace Near

variable {a b : HwType}

theorem symm (h : a.Near b) : b.Near a := h.imp Eq.symm And.symm

theorem isInteger (h : a.Near b) (hb : b.IsInteger) : a.IsInteger :=
  h.elim (fun heq ↦ heq ▸ hb) And.left

end Near

theorem isInteger_scalar (width : UInt16) (signed : Bool) : (scalar width signed).IsInteger := by
  cases signed with
  | true => exact .inl ⟨width, rfl⟩
  | false => exact .inr ⟨width, rfl⟩

theorem isInteger_of_represents {t : HwType} {value : Int64} (h : t.represents value = true) :
    t.IsInteger := by
  cases t with
  | signed width => exact .inl ⟨width, rfl⟩
  | unsigned width => exact .inr ⟨width, rfl⟩
  | boolean | array => cases h

theorem element?_of_isInteger {t : HwType} (h : t.IsInteger) : t.element? = none := by
  obtain ⟨width, rfl⟩ | ⟨width, rfl⟩ := h <;> rfl

theorem promote_of_isInteger {a b : HwType} (ha : a.IsInteger) (hb : b.IsInteger) :
    ∃ t, a.promote b = some t ∧ t.IsInteger := by
  unfold promote
  split
  · exact ⟨a, rfl, ha⟩
  · obtain ⟨v, rfl⟩ | ⟨v, rfl⟩ := ha <;> obtain ⟨w, rfl⟩ | ⟨w, rfl⟩ := hb
    · exact ⟨_, rfl, .inl ⟨_, rfl⟩⟩
    · exact ⟨_, rfl, .inl ⟨_, rfl⟩⟩
    · exact ⟨_, rfl, .inl ⟨_, rfl⟩⟩
    · exact ⟨_, rfl, .inr ⟨_, rfl⟩⟩

theorem promote_eq_some {a b t : HwType} (h : a.promote b = some t) :
    (a = b ∧ t = a) ∨ a.IsInteger ∧ b.IsInteger := by
  unfold promote at h
  split at h
  next heq => exact .inl ⟨heq, (Option.some.inj h).symm⟩
  next =>
    cases a with
    | boolean | array => cases h
    | signed v =>
      cases b with
      | boolean | array => cases h
      | signed w => exact .inr ⟨.inl ⟨v, rfl⟩, .inl ⟨w, rfl⟩⟩
      | unsigned w => exact .inr ⟨.inl ⟨v, rfl⟩, .inr ⟨w, rfl⟩⟩
    | unsigned v =>
      cases b with
      | boolean | array => cases h
      | signed w => exact .inr ⟨.inr ⟨v, rfl⟩, .inl ⟨w, rfl⟩⟩
      | unsigned w => exact .inr ⟨.inr ⟨v, rfl⟩, .inr ⟨w, rfl⟩⟩

end HwType

theorem operandType_of_isInteger {a b : HwType} (ha : a.IsInteger) (hb : b.IsInteger)
    (p q : Option Int64) : ∃ t, operandType a p b q = some t ∧ t.IsInteger := by
  have hpromote := HwType.promote_of_isInteger ha hb
  unfold operandType
  split
  · split
    · exact ⟨b, rfl, hb⟩
    · exact hpromote
  · split
    · exact ⟨a, rfl, ha⟩
    · exact hpromote
  · exact hpromote

/-- Operands of which only integers are constants, and not both are integers, have the type in which
they meet. -/
theorem operandType_eq_some {a b t : HwType} {p q : Option Int64} (hp : p ≠ none → a.IsInteger)
    (hq : q ≠ none → b.IsInteger) (h : operandType a p b q = some t) :
    (a = b ∧ t = a) ∨ a.IsInteger ∧ b.IsInteger := by
  unfold operandType at h
  split at h
  · split at h
    next hfits => exact .inr ⟨hp nofun, HwType.isInteger_of_represents hfits⟩
    next => exact HwType.promote_eq_some h
  · split at h
    next hfits => exact .inr ⟨HwType.isInteger_of_represents hfits, hq nofun⟩
    next => exact HwType.promote_eq_some h
  · exact HwType.promote_eq_some h

/-- Operands of one type that is not one of integers have it, whatever is constant. -/
theorem operandType_of_not_isInteger {a : HwType} (ha : ¬a.IsInteger) (p q : Option Int64) :
    operandType a p a q = some a := by
  have hfits (value : Int64) : ¬a.represents value = true := fun h ↦ ha (HwType.isInteger_of_represents h)
  have hpromote : a.promote a = some a := if_pos rfl
  unfold operandType
  split
  · rw [if_neg (hfits _), hpromote]
  · rw [if_neg (hfits _), hpromote]
  · exact hpromote

theorem operandType_near {a b c d t : HwType} {p q p' q' : Option Int64} (hac : a.Near c)
    (hbd : b.Near d) (hp : p ≠ none → c.IsInteger) (hq : q ≠ none → d.IsInteger)
    (h : operandType c p d q = some t) : ∃ s, operandType a p' b q' = some s ∧ s.Near t := by
  obtain ⟨rfl, rfl⟩ | ⟨hc, hd⟩ := operandType_eq_some hp hq h
  · by_cases hinteger : t.IsInteger
    · have ha : a.IsInteger := hac.elim (fun heq ↦ heq ▸ hinteger) And.left
      have hb : b.IsInteger := hbd.elim (fun heq ↦ heq ▸ hinteger) And.left
      obtain ⟨s, hs, hsi⟩ := operandType_of_isInteger ha hb p' q'
      exact ⟨s, hs, .inr ⟨hsi, hinteger⟩⟩
    · obtain rfl : a = t := hac.resolve_right fun hboth ↦ hinteger hboth.2
      obtain rfl : b = a := hbd.resolve_right fun hboth ↦ hinteger hboth.2
      exact ⟨b, operandType_of_not_isInteger hinteger p' q', .inl rfl⟩
  · have ha : a.IsInteger := hac.elim (fun heq ↦ heq ▸ hc) And.left
    have hb : b.IsInteger := hbd.elim (fun heq ↦ heq ▸ hd) And.left
    obtain ⟨s, hs, hsi⟩ := operandType_of_isInteger ha hb p' q'
    obtain ⟨t', ht', hti⟩ := operandType_of_isInteger hc hd p q
    obtain rfl := Option.some.inj (h.symm.trans ht')
    exact ⟨s, hs, .inr ⟨hsi, hti⟩⟩

/-- Before operands meet it fails only if one is a constant and the other has the signed type without
bits. -/
theorem checkOperands_cases (a : HwType) (p : Option Int64) (b : HwType) (q : Option Int64) :
    checkOperands a p b q = .ok () ∨
      (p ≠ none ∧ q = none ∧ b = .signed 0 ∨ p = none ∧ q ≠ none ∧ a = .signed 0) ∧
        checkOperands a p b q = .error (.fault .underflow) := by
  have hfits (value : Int64) (t : HwType) : t.checkFits value = .ok () ∨
      t = .signed 0 ∧ t.checkFits value = .error (.fault .underflow) := by
    unfold HwType.checkFits HwType.fits
    split_ifs with ht
    · exact .inr ⟨ht, rfl⟩
    · exact .inl rfl
  cases p with
  | none =>
    cases q with
    | none => exact .inl rfl
    | some value =>
      exact (hfits value a).imp_right fun ⟨ha, hfault⟩ ↦ ⟨.inr ⟨rfl, nofun, ha⟩, hfault⟩
  | some value =>
    cases q with
    | none => exact (hfits value b).imp_right fun ⟨hb, hfault⟩ ↦ ⟨.inl ⟨nofun, rfl, hb⟩, hfault⟩
    | some _ => exact .inl rfl

namespace Draft

structure SameValues (d d' : Draft) : Prop where
  locals : d'.frame.locals = d.frame.locals
  results : d'.results = d.results

def isConstant (d : Draft) (e : Expr) : Bool :=
  !d.isEvaluated e &&
    match e with
    | .literal _ value => value.asInt.isSome
    | .getLocal _ name | .getParameter _ name =>
      match d.binding? name with
      | some (.constant _ _) => true
      | _ => false
    | .newArray _ _ _ | .arrayLength _ _ => true
    | .cast _ _ operand => isConstant d operand
    | _ => false

/-- Whether an expression is lowered to a constant without being a literal, or is a literal without
being lowered to one. -/
def isHidden (d : Draft) (e : Expr) : Bool :=
  d.isConstant e != e.intLiteral?.isSome

def hasHidden (d : Draft) (e : Expr) : Bool :=
  !d.isEvaluated e &&
    match e with
    | .unary _ _ operand => hasHidden d operand
    | .binary _ op lhs rhs =>
      !(op.isComparison || op.isLogical) && (hasHidden d lhs ||
        !op.isShift && (hasHidden d rhs || d.isHidden lhs || d.isHidden rhs))
    | _ => false

structure Regular (d : Draft) : Prop where
  locals : ∀ name b, d.binding? name = some b → (∃ x type, b = .variable x type) ∨
    ∃ n, b = .constant (.int n (.signed 32)) (.signed 32)
  results : ∀ id r, d.result? id = some r → ∃ (name : String) (type : Option HwType),
    r = type.map (.ofVariable name)

namespace SameValues

variable {d d' d'' : Draft}

theorem trans (h : d.SameValues d') (h' : d'.SameValues d'') : d.SameValues d'' :=
  ⟨h'.locals.trans h.locals, h'.results.trans h.results⟩

theorem ofLearns {l : Lowering} (h : l.Learns (fun _ _ ↦ False) [] d d') : d.SameValues d' := by
  induction h with
  | same hs => exact ⟨hs.locals, hs.results⟩
  | trans _ _ ih ih' => exact ih.trans ih'
  | temporary d type comment => exact ⟨rfl, rfl⟩
  | call he | guarded he => cases he
  | expanded hinner => exact hinner.elim

theorem ofExpr {l : Lowering} {e : Expr} {v : Lowered} (h : l.expr e d = .ok (v, d')) :
    d.SameValues d' :=
  .ofLearns (Lowering.learns_expr h)

theorem result? (h : d.SameValues d') (id : NodeId) : d'.result? id = d.result? id := by
  unfold Draft.result?
  rw [h.results]

theorem binding? (h : d.SameValues d') (name : String) : d'.binding? name = d.binding? name := by
  unfold Draft.binding?
  rw [h.locals]

theorem infer (l : Lowering) (h : d.SameValues d') (e : Expr) : l.infer d' e = l.infer d e := by
  induction e using Expr.induction with
  | literal | getField | newArray | arrayLength | cast | call =>
    rw [Lowering.infer, Lowering.infer, h.result?]
  | getLocal id name | getParameter id name =>
    rw [Lowering.infer, Lowering.infer, h.result?]
    unfold Lowering.lookup
    rw [h.binding?]
  | unary id op operand ih => rw [Lowering.infer, Lowering.infer, h.result?, ih]
  | binary id op lhs rhs ihl ihr => rw [Lowering.infer, Lowering.infer, h.result?, ihl, ihr]
  | arrayElement id array index iha ihi => rw [Lowering.infer, Lowering.infer, h.result?, iha]
  | conditional id condition ifTrue ifFalse ihc iht ihf =>
    rw [Lowering.infer, Lowering.infer, h.result?, iht, ihf]

theorem isEvaluated (h : d.SameValues d') (e : Expr) : d'.isEvaluated e = d.isEvaluated e := by
  unfold Draft.isEvaluated
  rw [h.result?]

theorem isConstant (h : d.SameValues d') (e : Expr) : d'.isConstant e = d.isConstant e := by
  induction e using Expr.induction with
  | getLocal id name | getParameter id name =>
    rw [Draft.isConstant, Draft.isConstant, h.isEvaluated, h.binding?]
  | cast id type operand ih => rw [Draft.isConstant, Draft.isConstant, h.isEvaluated, ih]
  | _ => simp only [Draft.isConstant, h.isEvaluated]

theorem isHidden (h : d.SameValues d') (e : Expr) : d'.isHidden e = d.isHidden e := by
  unfold Draft.isHidden
  rw [h.isConstant]

theorem hasHidden (h : d.SameValues d') (e : Expr) : d'.hasHidden e = d.hasHidden e := by
  induction e using Expr.induction with
  | unary id op operand ih => rw [Draft.hasHidden, Draft.hasHidden, h.isEvaluated, ih]
  | binary id op lhs rhs ihl ihr =>
    rw [Draft.hasHidden, Draft.hasHidden, h.isEvaluated, ihl, ihr, h.isHidden, h.isHidden]
  | _ => simp only [Draft.hasHidden, h.isEvaluated]

theorem regular (h : d.SameValues d') (hd : d.Regular) : d'.Regular where
  locals name b hb := hd.locals name b ((h.binding? name).symm.trans hb)
  results id r hr := hd.results id r ((h.result? id).symm.trans hr)

end SameValues

end Draft

theorem HwExpr.intLiteral?_ne_none {e : HwExpr} (h : e.intLiteral? ≠ none) :
    ∃ n t, e = .int n t ∧ t.element? = none := by
  cases e with
  | int n t =>
    cases t with
    | array => exact absurd rfl h
    | boolean | signed | unsigned => exact ⟨n, _, rfl, rfl⟩
  | _ => exact absurd rfl h

namespace Lowered

def Plain (v : Lowered) : Prop :=
  ∀ n t, v.expr = .int n t → t = v.type ∧ (t.IsInteger ∨ t.element? ≠ none)

variable {v : Lowered}

theorem Plain.isInteger (h : v.Plain) (hc : v.expr.intLiteral? ≠ none) : v.type.IsInteger := by
  obtain ⟨n, t, heq, helement⟩ := HwExpr.intLiteral?_ne_none hc
  obtain ⟨rfl, hi | ha⟩ := h n t heq
  · exact hi
  · exact absurd helement ha

theorem constant_of_coerce {target : HwType} {n : Int64} {t : HwType}
    (h : v.coerce target = .int n t) : ∃ m s, v.expr = .int m s := by
  obtain ⟨e, type, cost⟩ := v
  unfold coerce HwExpr.coerce at h
  split at h
  · exact ⟨n, t, h⟩
  · cases e with
    | int m s => exact ⟨m, s, rfl⟩
    | _ => cases h

theorem Plain.coerce (h : v.Plain) (target : HwType) (cost : Binary64) :
    Plain ⟨v.coerce target, target, cost⟩ := by
  intro n t heq
  obtain ⟨e, type, cost'⟩ := v
  dsimp only at heq
  unfold Lowered.coerce HwExpr.coerce at heq
  dsimp only at heq
  split at heq
  next hsame =>
    obtain ⟨ht, hkind⟩ := h n t heq
    exact ⟨ht.trans hsame, hkind⟩
  next =>
    cases e with
    | int m s =>
      dsimp only at heq
      split at heq
      next hfits =>
        obtain ⟨-, rfl⟩ := HwExpr.int.inj heq
        exact ⟨rfl, .inl (HwType.isInteger_of_represents hfits)⟩
      next => cases heq
    | _ => cases heq

end Lowered

namespace Lowering

variable {l : Lowering} {d d' d₀ : Draft} {v : Lowered}

/-- An operator gives the type of its left operand if it is a shift, booleans if it compares or
combines conditions, and the type in which its operands meet otherwise. -/
theorem type_binary {op : BinaryOp} {a b w : Lowered} (h : l.binary op a b = .ok w) :
    ∃ x y, w.expr = .binary op.hardware x y w.type ∧
      if op.isShift then w.type = a.type
      else if op.isComparison || op.isLogical then w.type = .boolean
      else operandType a.type a.expr.intLiteral? b.type b.expr.intLiteral? = some w.type := by
  obtain ⟨hshift, cost, rfl⟩ | ⟨hshift, type, cost, htype, rfl⟩ := binary_eq_ok h
  · exact ⟨_, _, rfl, (if_pos hshift).mpr rfl⟩
  · refine ⟨_, _, rfl, ?_⟩
    have hmeet := (operands_eq_ok htype).1
    rw [if_neg hshift]
    dsimp only
    cases hcompare : op.isComparison with
    | true => rfl
    | false =>
      cases hlogical : op.isLogical with
      | true =>
        rw [if_pos hlogical] at hmeet
        exact hmeet.2.2
      | false =>
        rw [if_neg (ne_true_of_eq_false hlogical)] at hmeet
        exact hmeet

theorem variable_of_regular (hd : d.Regular) {id : NodeId} (hr : d.result? id = some (some v)) :
    ∃ name type, v = .ofVariable name type := by
  obtain ⟨name, type, heq⟩ := hd.results _ _ hr
  cases type with
  | none => cases heq
  | some type => exact ⟨name, type, Option.some.inj heq⟩

def Shows (d : Draft) (e : Expr) (v : Lowered) : Prop :=
  v.Plain ∧ ∀ n t, v.expr = .int n t → d.isConstant e = true

theorem shows_of_ne {e : Expr} (hv : ∀ n t, v.expr ≠ .int n t) : Shows d e v :=
  ⟨fun n t heq ↦ absurd heq (hv n t), fun n t heq ↦ absurd heq (hv n t)⟩

theorem shows_lowered (hd : d.Regular) {e : Expr} {name : String} {b : Binding}
    (hr : d.result? e.id = none) (he : e = .getLocal e.id name ∨ e = .getParameter e.id name)
    (hb : l.lookup d name = .ok b) : Shows d e b.lowered := by
  have hb := require_eq_ok.1 hb
  obtain ⟨x, type, rfl⟩ | ⟨n, rfl⟩ := hd.locals name b hb
  · exact shows_of_ne nofun
  · refine ⟨fun m t heq ↦ ?_, fun m t _ ↦ ?_⟩
    · obtain ⟨-, rfl⟩ := HwExpr.int.inj heq
      exact ⟨rfl, .inl (.inl ⟨32, rfl⟩)⟩
    · have hev := isEvaluated_of_none hr
      obtain he | he := he <;> rw [he] at hev ⊢ <;> rw [Draft.isConstant, hev, hb] <;> rfl

theorem shows_of_expr (hd : d.Regular) {e : Expr} (h : l.expr e d = .ok (v, d')) :
    Shows d e v := by
  have hconstant {d : Draft} {e : Expr} {n : Int64} {t : HwType} (hr : d.result? e.id = none)
      (ht : t.IsInteger ∨ t.element? ≠ none) (he : d.isEvaluated e = false → d.isConstant e = true) :
      Shows d e (.free (.int n t) t) := by
    refine ⟨fun m s heq ↦ ?_, fun _ _ _ ↦ he (isEvaluated_of_none hr)⟩
    obtain ⟨-, rfl⟩ := HwExpr.int.inj heq
    exact ⟨rfl, ht⟩
  rw [expr_eq_ok] at h
  induction h with
  | known hr =>
    obtain ⟨name, type, rfl⟩ := variable_of_regular hd hr
    exact shows_of_ne nofun
  | @literal d id value hr =>
    cases value with
    | bool value => exact shows_of_ne nofun
    | int value width signed =>
      refine hconstant hr (.inl (HwType.isInteger_scalar width signed)) fun hev ↦ ?_
      rw [Draft.isConstant, hev]
      rfl
  | getLocal hr hb => exact shows_lowered hd hr (.inl rfl) hb
  | getParameter hr hb => exact shows_lowered hd hr (.inr rfl) hb
  | unary _ _ hw =>
    obtain ⟨-, cost, rfl⟩ := unary_eq_ok hw
    exact shows_of_ne nofun
  | binary _ _ _ hw =>
    obtain ⟨x, y, hvalue, -⟩ := type_binary hw
    exact shows_of_ne fun n t heq ↦ by cases hvalue.symm.trans heq
  | newArray hr htype =>
    obtain ⟨s, -, htype⟩ := Synthesis.bind_eq_ok.1 htype
    obtain ⟨n, -, htype⟩ := Synthesis.bind_eq_ok.1 htype
    obtain rfl := Except.ok.inj htype
    refine hconstant hr (.inr nofun) fun hev ↦ ?_
    rw [Draft.isConstant, hev]
    rfl
  | arrayElement _ _ _ hw =>
    obtain ⟨type, cost, -, -, rfl⟩ := element_eq_ok hw
    exact shows_of_ne nofun
  | arrayLength hr =>
    refine hconstant hr (.inl (.inl ⟨32, rfl⟩)) fun hev ↦ ?_
    rw [Draft.isConstant, hev]
    rfl
  | conditional => exact shows_of_ne nofun
  | cast hr _ _ _ ih =>
    obtain ⟨hplain, hoperand⟩ := ih hd
    refine ⟨hplain.coerce _ _, fun n t heq ↦ ?_⟩
    obtain ⟨m, s, hxe⟩ := Lowered.constant_of_coerce heq
    rw [Draft.isConstant, isEvaluated_of_none hr, hoperand m s hxe]
    rfl

/-- The lowered value is the constant that is written in the expression, if that is not hidden. -/
theorem intLiteral?_of_expr (hd : d.Regular) {e : Expr} (h : l.expr e d = .ok (v, d'))
    (hh : d.isHidden e = false) : v.expr.intLiteral? = e.intLiteral? := by
  unfold Draft.isHidden at hh
  rw [bne_eq_false_iff_eq] at hh
  cases hc : d.isConstant e with
  | false =>
    rw [hc] at hh
    rw [Option.not_isSome_iff_eq_none.1 (ne_true_of_eq_false hh.symm)]
    by_contra hsome
    obtain ⟨n, t, heq, -⟩ := HwExpr.intLiteral?_ne_none hsome
    rw [(shows_of_expr hd h).2 n t heq] at hc
    cases hc
  | true =>
    rw [hc] at hh
    cases e with
    | literal id value =>
      have hr : d.result? id = none := by
        rw [Draft.isConstant] at hc
        simpa [Draft.isEvaluated, Expr.id] using (Bool.and_eq_true_iff.1 hc).1
      rw [expr] at h
      simp only [Expr.id, hr] at h
      obtain ⟨rfl, -⟩ := Prod.mk.inj (Except.ok.inj h)
      cases value with
      | bool value => rfl
      | int value width signed => cases signed <;> rfl
    | _ => cases hh

/-- A type is inferred for an expression that is near that of the lowered value, and the same unless
a hidden constant can decide it. With a hidden constant the inference may also fail, where it infers the
signed type without bits for an operand. -/
def Predicts (l : Lowering) (d : Draft) (e : Expr) (v : Lowered) : Prop :=
  (∃ t, l.infer d e = .ok t ∧ t.Near v.type ∧ (d.hasHidden e = false → t = v.type)) ∨
    d.hasHidden e = true ∧ v.type.IsInteger ∧ (∃ x ∈ e.nodes, l.infer d x = .ok (.signed 0)) ∧
      l.infer d e = .error (.fault .underflow)

theorem predicts_of_eq {e : Expr} (h : l.infer d e = .ok v.type) : l.Predicts d e v :=
  .inl ⟨v.type, h, .inl rfl, fun _ ↦ rfl⟩

theorem Predicts.same {e : Expr} (h : l.Predicts d' e v) (hs : d.SameValues d') :
    l.Predicts d e v := by
  unfold Predicts at h ⊢
  simpa only [hs.infer, hs.hasHidden] using h

theorem isShift_of_boolean {op : BinaryOp} (h : (op.isComparison || op.isLogical) = true) :
    op.isShift = false := by
  cases op <;> first | rfl | cases h

theorem checkOperands_of_binary {op : BinaryOp} {a b w : Lowered} (h : l.binary op a b = .ok w)
    (hshift : op.isShift = false) (hlogical : op.isLogical = false) :
    checkOperands a.type a.expr.intLiteral? b.type b.expr.intLiteral? = .ok () := by
  obtain ⟨hyes, -⟩ | ⟨-, type, cost, htype, -⟩ := binary_eq_ok h
  · rw [hshift] at hyes
    cases hyes
  · exact checkOperands_of_operands htype (ne_true_of_eq_false hlogical)

/-- An operator that keeps the type of its operands gives an integer if one of them is one. -/
theorem isInteger_binary {op : BinaryOp} (hc : (op.isComparison || op.isLogical) = false)
    {a b w : Lowered} (ha : a.Plain) (hb : b.Plain) (h : l.binary op a b = .ok w)
    (hi : a.type.IsInteger ∨ op.isShift = false ∧ b.type.IsInteger) : w.type.IsInteger := by
  obtain ⟨x, y, -, htype⟩ := type_binary h
  cases hshift : op.isShift with
  | true =>
    rw [if_pos hshift] at htype
    rw [htype]
    exact hi.resolve_right fun hr ↦ absurd hshift (ne_true_of_eq_false hr.1)
  | false =>
    rw [if_neg (ne_true_of_eq_false hshift), if_neg (ne_true_of_eq_false hc)] at htype
    obtain ⟨heq, hw⟩ | ⟨hai, hbi⟩ := operandType_eq_some ha.isInteger hb.isInteger htype
    · rw [hw]
      exact hi.elim id fun hr ↦ heq ▸ hr.2
    · obtain ⟨t, ht, hti⟩ := operandType_of_isInteger hai hbi a.expr.intLiteral? b.expr.intLiteral?
      rwa [← Option.some.inj (ht.symm.trans htype)]

theorem clear_operands (hd : d.Regular) {lhs rhs : Expr} {a b : Lowered} {d₁ d₂ : Draft}
    (ha : l.expr lhs d = .ok (a, d₁)) (hb : l.expr rhs d₁ = .ok (b, d₂)) {s t : HwType}
    (hs : d.hasHidden lhs = false → s = a.type) (ht : d.hasHidden rhs = false → t = b.type)
    (h : (d.hasHidden lhs || (d.hasHidden rhs || d.isHidden lhs || d.isHidden rhs)) = false) :
    s = a.type ∧ t = b.type ∧ a.expr.intLiteral? = lhs.intLiteral? ∧
      b.expr.intLiteral? = rhs.intLiteral? := by
  have hsame := Draft.SameValues.ofExpr ha
  simp only [Bool.or_eq_false_iff] at h
  obtain ⟨hlh, ⟨hrh, hl⟩, hr⟩ := h
  exact ⟨hs hlh, ht hrh, intLiteral?_of_expr hd ha hl,
    intLiteral?_of_expr (hsame.regular hd) hb ((hsame.isHidden rhs).trans hr)⟩

/-- The inference fails on operands only if a constant is hidden from it, since the lowering does not. -/
theorem checkOperands_of_clear {op : BinaryOp} {a b w : Lowered} (hw : l.binary op a b = .ok w)
    (hshift : op.isShift = false) (hlogical : op.isLogical = false) {s t : HwType}
    {p q : Option Int64} (hclear : s = a.type ∧ t = b.type ∧ a.expr.intLiteral? = p ∧
      b.expr.intLiteral? = q) : checkOperands s p t q = .ok () := by
  obtain ⟨rfl, rfl, rfl, rfl⟩ := hclear
  exact checkOperands_of_binary hw hshift hlogical

theorem predicts_binary (hd : d.Regular) {id : NodeId} {op : BinaryOp} {lhs rhs : Expr}
    {a b w : Lowered} {d₁ d₂ : Draft} (hr : d.result? (Expr.binary id op lhs rhs).id = none)
    (ha : l.expr lhs d = .ok (a, d₁)) (hb : l.expr rhs d₁ = .ok (b, d₂))
    (hleft : l.Predicts d lhs a) (hright : l.Predicts d rhs b) (hw : l.binary op a b = .ok w) :
    l.Predicts d (.binary id op lhs rhs) w := by
  obtain ⟨x, y, -, htype⟩ := type_binary hw
  have hev := isEvaluated_of_none hr
  have hsame := Draft.SameValues.ofExpr ha
  have hplain := (shows_of_expr hd ha).1
  have hplain' := (shows_of_expr (hsame.regular hd) hb).1
  have hlhs : lhs.nodes ⊆ (Expr.binary id op lhs rhs).nodes :=
    Expr.nodes_subset_of_mem_children (by simp [Expr.children])
  have hrhs : rhs.nodes ⊆ (Expr.binary id op lhs rhs).nodes :=
    Expr.nodes_subset_of_mem_children (by simp [Expr.children])
  cases hc : op.isComparison || op.isLogical with
  | true =>
    rw [if_neg (ne_true_of_eq_false (isShift_of_boolean hc)), if_pos hc] at htype
    refine predicts_of_eq ?_
    rw [infer, hr, htype]
    exact if_pos hc
  | false =>
    have hinteger := isInteger_binary hc hplain hplain' hw
    unfold Predicts
    rw [infer, hr, Draft.hasHidden, hev, hc]
    dsimp only
    rw [if_neg Bool.false_ne_true]
    obtain ⟨s, hs, hsn, hse⟩ | ⟨hlh, hli, ⟨z, hz, hzero⟩, hs⟩ := hleft
    · rw [hs, Synthesis.ok_bind]
      cases hshift : op.isShift with
      | true =>
        rw [if_pos hshift] at htype
        rw [htype]
        refine .inl ⟨s, rfl, hsn, fun hh ↦ hse ?_⟩
        simpa using hh
      | false =>
        rw [if_neg (ne_true_of_eq_false hshift), if_neg (ne_true_of_eq_false hc)] at htype
        rw [if_neg Bool.false_ne_true]
        obtain ⟨t, ht, htn, hte⟩ | ⟨hrh, hri, ⟨z, hz, hzero⟩, ht⟩ := hright
        · obtain ⟨r, hr', hrn⟩ := operandType_near hsn htn hplain.isInteger hplain'.isInteger htype
          -- Without hidden constants both sides see the same types and constants.
          have hclear := clear_operands hd ha hb hse hte
          rw [ht, Synthesis.ok_bind, hr']
          obtain hcheck | ⟨hwhere, hcheck⟩ :=
            checkOperands_cases s lhs.intLiteral? t rhs.intLiteral?
          · refine .inl ⟨r, by rw [hcheck]; rfl, hrn, fun hh ↦ ?_⟩
            obtain ⟨rfl, rfl, hla, hlb⟩ := hclear hh
            rw [← hla, ← hlb, htype] at hr'
            exact (Option.some.inj hr').symm
          · have hhidden : (d.hasHidden lhs ||
                (d.hasHidden rhs || d.isHidden lhs || d.isHidden rhs)) = true := by
              by_contra hh
              have hok := checkOperands_of_clear hw hshift (Bool.or_eq_false_iff.1 hc).2
                (hclear (eq_false_of_ne_true hh))
              rw [hcheck] at hok
              cases hok
            have hsigned : (HwType.signed 0).IsInteger := .inl ⟨0, rfl⟩
            obtain ⟨-, -, rfl⟩ | ⟨-, -, rfl⟩ := hwhere
            · exact .inr ⟨by simpa using hhidden, hinteger (.inr ⟨hshift, htn.symm.isInteger hsigned⟩),
                ⟨rhs, hrhs rhs.mem_nodes_self, ht⟩, by rw [hcheck]; rfl⟩
            · exact .inr ⟨by simpa using hhidden, hinteger (.inl (hsn.symm.isInteger hsigned)),
                ⟨lhs, hlhs lhs.mem_nodes_self, hs⟩, by rw [hcheck]; rfl⟩
        · exact .inr ⟨by simp [hrh], hinteger (.inr ⟨hshift, hri⟩), ⟨z, hrhs hz, hzero⟩,
            by rw [ht]; rfl⟩
    · exact .inr ⟨by simp [hlh], hinteger (.inl hli), ⟨z, hlhs hz, hzero⟩, by rw [hs]; rfl⟩

theorem infer_of_expr (hd : d.Regular) {e : Expr} (h : l.expr e d = .ok (v, d')) :
    l.Predicts d e v := by
  rw [expr_eq_ok] at h
  induction h with
  | known hr =>
    refine predicts_of_eq ?_
    unfold infer
    simp only [hr]
    rfl
  | literal hr =>
    refine predicts_of_eq ?_
    rw [infer, Expr.id, hr]
  | @getLocal d id name b hr hb | @getParameter d id name b hr hb =>
    refine predicts_of_eq ?_
    rw [infer, Expr.id, hr]
    dsimp only
    rw [hb]
    cases b <;> rfl
  | unary hr _ hw ih =>
    obtain ⟨-, cost, rfl⟩ := unary_eq_ok hw
    unfold Predicts
    rw [infer, Expr.id, hr, Draft.hasHidden, isEvaluated_of_none hr]
    obtain hinferred | ⟨hhidden, hi, ⟨x, hx, hzero⟩, hfault⟩ := ih hd
    · exact .inl hinferred
    · exact .inr ⟨hhidden, hi,
        ⟨x, Expr.nodes_subset_of_mem_children (by simp [Expr.children]) hx, hzero⟩, hfault⟩
  | binary hr ha hb hw iha ihb =>
    -- Both operands are lowered in drafts with the same bindings and results.
    have hsame := Draft.SameValues.ofExpr ha.expr
    exact predicts_binary hd hr ha.expr hb.expr (iha hd) ((ihb (hsame.regular hd)).same hsame) hw
  | newArray hr htype =>
    refine predicts_of_eq ?_
    rw [infer, Expr.id, hr]
    exact htype
  | arrayElement hr _ _ hw iha =>
    obtain ⟨type, cost, htype, -, rfl⟩ := element_eq_ok hw
    obtain ⟨t, ht, heq | ⟨-, hinteger⟩, -⟩ | ⟨-, hinteger, -, -⟩ := iha hd
    · refine predicts_of_eq ?_
      rw [infer, Expr.id, hr]
      dsimp only
      rw [ht, heq]
      exact require_eq_ok.2 htype
    · rw [HwType.element?_of_isInteger hinteger] at htype
      cases htype
    · rw [HwType.element?_of_isInteger hinteger] at htype
      cases htype
  | arrayLength hr =>
    refine predicts_of_eq ?_
    rw [infer, Expr.id, hr]
    rfl
  | conditional _ htype => exact predicts_of_eq htype
  | cast hr htarget =>
    refine predicts_of_eq ?_
    rw [infer, Expr.id, hr]
    exact require_eq_ok.2 htarget

end Lowering

end Fabric
