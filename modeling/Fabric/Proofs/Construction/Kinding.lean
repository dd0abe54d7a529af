import Fabric.Proofs.Construction.Context
import Fabric.Proofs.Construction.Reached
import Fabric.Proofs.Typing.Conversions

namespace Fabric

theorem operandType_near_left {a b k t : HwType} {p q : Option Int64} (ha : a.Near k)
    (hp : p ≠ none → a.IsInteger) (hq : q ≠ none → b.IsInteger) (h : operandType a p b q = some t) :
    t.Near k := by
  obtain ⟨-, rfl⟩ | ⟨hai, hbi⟩ := operandType_eq_some hp hq h
  · exact ha
  · obtain ⟨t', ht', hti⟩ := operandType_of_isInteger hai hbi p q
    obtain rfl := Option.some.inj (h.symm.trans ht')
    exact .inr ⟨hti, ha.symm.isInteger hai⟩

instance Synthesis.decidableForallOk {α : Type} {P : α → Prop} [DecidablePred P] :
    (x : Synthesis α) → Decidable (∀ a, x = .ok a → P a)
  | .ok a => decidable_of_iff (P a) ⟨fun h _ ha ↦ Except.ok.inj ha ▸ h, fun h ↦ h a rfl⟩
  | .error e => isTrue fun a ha ↦ by cases ha

structure Kinding where
  node : NodeId → HwType
  name : String → String → HwType

namespace Kinding

variable (K : Kinding) (l : Lowering) (member : String)

/-- An expression suits a place of a type: its value can be converted to it, or is a new array, which is
made with the length of the place. -/
def Suits : Expr → HwType → Prop
  | .newArray _ _ _, .array _ _ => True
  | e, t => (K.node e.id).Converts t

instance : (e : Expr) → (t : HwType) → Decidable (K.Suits e t)
  | .newArray _ _ _, .array _ _ => isTrue trivial
  | .newArray _ _ _, .boolean | .newArray _ _ _, .signed _ | .newArray _ _ _, .unsigned _ =>
    inferInstanceAs (Decidable (HwType.Converts _ _))
  | .literal _ _, _ | .getLocal _ _, _ | .getParameter _ _, _ | .getField _ _, _ | .unary _ _ _, _
  | .binary _ _ _ _, _ | .call _ _ _, _ | .arrayElement _ _ _, _ | .arrayLength _ _, _
  | .conditional _ _ _ _, _ | .cast _ _ _, _ => inferInstanceAs (Decidable (HwType.Converts _ _))

def Admits : Expr → Prop
  | .literal id value => (Lowered.ofLiteral value).type.Near (K.node id)
  | .getLocal id name | .getParameter id name => (K.name member name).Near (K.node id)
  | .getField _ _ => True
  | .unary id _ operand => (K.node operand.id).Near (K.node id)
  | .binary id op lhs rhs =>
    if op.isComparison || op.isLogical then
      K.node id = .boolean ∧
        (op.isLogical → (K.node lhs.id).Converts .boolean ∧ (K.node rhs.id).Converts .boolean)
    else (K.node lhs.id).Near (K.node id)
  | .call id target args => ∀ h ∈ l.program.tree.resolveCall target,
    (∀ t, l.resultType h = .ok t → ∀ type ∈ t, type.Near (K.node id)) ∧
    ∀ p ∈ (l.program.tree.method h).parameters.zip args,
      ∀ t, l.parameterType (l.program.tree.memberFullName h) p.1 = .ok t → (K.node p.2.id).Converts t
  | .newArray id element length => ∀ t, l.newArrayType element length = .ok t → t.Near (K.node id)
  | .arrayElement id array _ => ∀ t ∈ (K.node array.id).element?, t.Near (K.node id)
  | .arrayLength id _ => (K.node id).IsInteger
  | .conditional id condition ifTrue ifFalse =>
    (K.node condition.id).Converts .boolean ∧ (K.node ifTrue.id).Near (K.node id) ∧
      (K.node ifFalse.id).Near (K.node id)
  | .cast id type operand => ∀ t ∈ type.scalarHardware?, (K.node operand.id).Converts t ∧
    t.Near (K.node id)

def AdmitsAll (e : Expr) : Prop := ∀ x ∈ e.nodes, K.Admits l member x

def AdmitsStmt (result : Option HwType) (s : Stmt) : Prop :=
  (∀ e ∈ s.exprs, K.AdmitsAll l member e) ∧
  (∀ e ∈ s.condition?, (K.node e.id).Converts .boolean) ∧
  match s with
  | .declare _ name type init =>
    ∀ t, type.hardware l.program.arrays (memberArrayKey member name) l.member.fullName = .ok t →
      t.Near (K.name member name) ∧ ∀ e ∈ init, K.Suits e t
  | .assign _ (.toLocal name) e | .assign _ (.toParameter name) e => K.Suits e (K.name member name)
  | .store _ array _ value => ∀ name, l.arrayName array = .ok name →
    ∀ t ∈ (K.name member name).element?, (K.node value.id).Converts t
  | .ret _ value => ∀ e ∈ value, ∀ t ∈ result, K.Suits e t
  | .parallel _ count index call results =>
    (K.name member index).IsInteger ∧ ∀ name ∈ results, ∀ c, l.callee call = .ok c →
      ∀ t, l.resultType c.1 = .ok t → ∀ type ∈ t, ∀ n ∈ count.copies, K.name member name =
        .array type ((l.program.arrays.get? (memberArrayKey member name)).getD n)
  | _ => True

def AdmitsMember (h : MemberHandle) : Prop :=
  let member := l.program.tree.memberFullName h
  (∀ p ∈ (l.program.tree.method h).parameters, ∀ t, l.parameterType member p = .ok t →
    t.Near (K.name member p.name)) ∧
  ∀ code ∈ (l.program.tree.method h).body, ∀ result, l.resultType h = .ok result →
    ∀ s ∈ code.nodes, K.AdmitsStmt l member result s

instance : (e : Expr) → Decidable (K.Admits l member e)
  | .literal _ _ | .getLocal _ _ | .getParameter _ _ | .unary _ _ _ =>
    inferInstanceAs (Decidable (HwType.Near _ _))
  | .getField _ _ => isTrue trivial
  | .binary id op lhs rhs => inferInstanceAs (Decidable (if op.isComparison || op.isLogical then
      K.node id = .boolean ∧
        (op.isLogical → (K.node lhs.id).Converts .boolean ∧ (K.node rhs.id).Converts .boolean)
    else (K.node lhs.id).Near (K.node id)))
  | .call id target args => inferInstanceAs (Decidable (∀ h ∈ l.program.tree.resolveCall target,
    (∀ t, l.resultType h = .ok t → ∀ type ∈ t, type.Near (K.node id)) ∧
    ∀ p ∈ (l.program.tree.method h).parameters.zip args, ∀ t,
      l.parameterType (l.program.tree.memberFullName h) p.1 = .ok t → (K.node p.2.id).Converts t))
  | .newArray id element length =>
    inferInstanceAs (Decidable (∀ t, l.newArrayType element length = .ok t → t.Near (K.node id)))
  | .arrayElement id array _ =>
    inferInstanceAs (Decidable (∀ t ∈ (K.node array.id).element?, t.Near (K.node id)))
  | .arrayLength id _ => inferInstanceAs (Decidable (K.node id).IsInteger)
  | .conditional _ _ _ _ => inferInstanceAs (Decidable (_ ∧ _ ∧ _))
  | .cast id type operand => inferInstanceAs (Decidable (∀ t ∈ type.scalarHardware?,
    (K.node operand.id).Converts t ∧ t.Near (K.node id)))

instance (e : Expr) : Decidable (K.AdmitsAll l member e) :=
  inferInstanceAs (Decidable (∀ x ∈ e.nodes, K.Admits l member x))

instance (result : Option HwType) : (s : Stmt) → Decidable (K.AdmitsStmt l member result s)
  | .declare _ _ _ _ | .assign _ (.toLocal _) _ | .assign _ (.toParameter _) _
  | .assign _ (.toField _) _ | .store _ _ _ _ | .ret _ _ | .parallel _ _ _ _ _ | .eval _ _
  | .branch _ _ _ _ | .whileLoop _ _ _ | .forLoop _ _ _ _ _ | .block _ _ | .breakLoop _
  | .continueLoop _ => inferInstanceAs (Decidable (_ ∧ _ ∧ _))

instance (h : MemberHandle) : Decidable (K.AdmitsMember l h) :=
  inferInstanceAs (Decidable (_ ∧ _))

variable {K l member}

theorem AdmitsAll.child {e c : Expr} (h : K.AdmitsAll l member e) (hc : c ∈ e.children) :
    K.AdmitsAll l member c :=
  fun x hx ↦ h x (Expr.nodes_subset_of_mem_children hc hx)

theorem AdmitsAll.of_mem {e c : Expr} (h : K.AdmitsAll l member e) (hc : c ∈ e.nodes) :
    K.AdmitsAll l member c :=
  fun x hx ↦ h x (Expr.nodes_subset hc hx)

theorem AdmitsAll.self {e : Expr} (h : K.AdmitsAll l member e) : K.Admits l member e :=
  h e e.mem_nodes_self

theorem Suits.near {e : Expr} {t t' : HwType} (h : K.Suits e t) (ht : t.Near t') : K.Suits e t' := by
  unfold Suits at h ⊢
  split at h
  · obtain rfl := ht.symm.eq_array
    trivial
  · split
    · trivial
    · exact h.near ht

end Kinding

/-- A draft of a member with the given result: names and results have the types of the kinding, and only
conversions that hardware has are written. -/
structure Draft.Kinded (K : Kinding) (member : String) (result : Option HwType) (d : Draft) : Prop where
  named : d.frame.member = member
  returning : d.frame.returnType = result
  regular : d.Regular
  locals : ∀ name b, d.binding? name = some b → b.type.Near (K.name member name)
  results : ∀ id v, d.result? id = some (some v) → v.type.Near (K.node id)
  rendered : d.code.Rendered

namespace Draft.Kinded

variable {K : Kinding} {member : String} {result : Option HwType} {d d' : Draft}

theorem ofCode (h : d.Kinded K member result) (hframe : d'.frame = d.frame)
    (hresults : d'.results = d.results) (hcode : d'.code.Rendered) : d'.Kinded K member result where
  named := hframe ▸ h.named
  returning := hframe ▸ h.returning
  regular := h.regular.ofLocals h.regular (congrArg Frame.locals hframe) hresults
  locals name b hb := h.locals name b (by rwa [Draft.binding?, hframe] at hb)
  results id v hv := h.results id v (by rwa [Draft.result?, hresults] at hv)
  rendered := hcode

theorem relink (h : d.Kinded K member result) (hr : d.Relinks HwExpr.Rendered d') :
    d'.Kinded K member result :=
  h.ofCode hr.frame hr.results (h.rendered.of_subset hr.written hr.conditions)

theorem push (h : d.Kinded K member result) {s : HwStmt} (hs : s.Rendered) :
    (d.push s).Kinded K member result := by
  refine h.ofCode rfl rfl ?_
  rw [code_push]
  exact h.rendered.extend _ hs

theorem emit (h : d.Kinded K member result) {s : HwStmt} (hs : s.Rendered) (cost : Binary64) :
    (d.emit s cost).Kinded K member result :=
  (h.relink (.reserve d cost)).push hs

theorem temporary (h : d.Kinded K member result) (type : HwType) (comment : String) :
    (d.temporary type comment).2.Kinded K member result :=
  h.ofCode rfl rfl h.rendered

theorem declare (h : d.Kinded K member result) (name : String) (type : HwType) (comment : String) :
    (d.declare name type comment).2.Kinded K member result := by
  obtain ⟨hcode, -, hcontext⟩ := d.kept_declare name type comment
  exact h.ofCode hcontext.frame hcontext.results (hcode ▸ h.rendered)

theorem bind (h : d.Kinded K member result) {name : String} {b : Binding}
    (hb : (∃ x type, b = .variable x type) ∨ ∃ n, b = .constant (.int n (.signed 32)) (.signed 32))
    (htype : b.type.Near (K.name member name)) : (d.bind name b).Kinded K member result where
  named := h.named
  returning := h.returning
  regular := h.regular.bind name hb
  locals other c hc := by
    unfold Draft.binding? Draft.bind Draft.withLocals at hc
    rw [List.lookup_cons] at hc
    split at hc
    next heq =>
      obtain rfl := Option.some.inj hc
      obtain rfl := eq_of_beq heq
      exact htype
    next => exact h.locals other c hc
  results := h.results
  rendered := h.rendered

theorem setResult (h : d.Kinded K member result) {id : NodeId} {name : String} {t : Option HwType}
    (ht : ∀ type ∈ t, type.Near (K.node id)) :
    (d.setResult id (t.map (.ofVariable name))).Kinded K member result where
  named := h.named
  returning := h.returning
  regular := h.regular.setResult id name t
  locals := h.locals
  results other v hv := by
    unfold Draft.result? Draft.setResult at hv
    rw [List.lookup_cons] at hv
    split at hv
    next heq =>
      obtain rfl := eq_of_beq heq
      obtain ⟨type, htype, rfl⟩ := Option.map_eq_some_iff.1 (Option.some.inj hv)
      exact ht type htype
    next => exact h.results other v hv
  rendered := h.rendered

/-- The names come from one draft, and the results and the code from another one. -/
theorem ofFrame (h : d.Kinded K member result) {other : String} {result' : Option HwType}
    (h' : d'.Kinded K other result') : { d' with frame := d.frame }.Kinded K member result where
  named := h.named
  returning := h.returning
  regular := h.regular.ofLocals h'.regular rfl rfl
  locals := h.locals
  results := h'.results
  rendered := h'.rendered

theorem enterCall (h : d.Kinded K member result) (callee simpleName : String)
    (returnType : Option HwType) (returnVariable : Option String) :
    (d.enterCall callee simpleName returnType returnVariable).Kinded K callee returnType where
  named := rfl
  returning := rfl
  regular := h.regular.enterCall callee simpleName returnType returnVariable
  locals name b hb := by cases hb
  results := h.results
  rendered := h.rendered

/-- The conversions for a conditional that is evaluated whole are those that hardware has. -/
theorem choice (h : d.Kinded K member result) {type : HwType} {c a b : HwExpr}
    (hc : c.Rendered) (ha : a.Rendered) (hb : b.Rendered) (cost : Binary64) :
    ((d.temporary type "conditional value").2.emit
      (.branch c [.setVariable (tempName d.temporaries) a] [.setVariable (tempName d.temporaries) b])
      cost).Kinded K member result :=
  (h.temporary type _).emit (HwStmt.rendered_choice hc ha hb) cost

end Draft.Kinded

namespace Lowering

variable {l : Lowering} {K : Kinding} {member : String} {result : Option HwType} {d d' : Draft}
  {v : Lowered}

theorem isInteger_of_intLiteral? {e : Expr} (he : K.AdmitsAll l member e) {t : HwType}
    (ht : t.Near (K.node e.id)) (hc : e.intLiteral? ≠ none) : t.IsInteger := by
  cases e with
  | literal id value =>
    cases value with
    | bool value => exact absurd rfl hc
    | int value width signed =>
      exact ht.isInteger (he.self.symm.isInteger (HwType.isInteger_scalar width signed))
  | _ => exact absurd rfl hc

theorem near_operandType {a b : Expr} {s t r k : HwType} (ha : K.AdmitsAll l member a)
    (hb : K.AdmitsAll l member b) (hs : s.Near (K.node a.id)) (ht : t.Near (K.node b.id))
    (hk : (K.node a.id).Near k) (h : operandType s a.intLiteral? t b.intLiteral? = some r) : r.Near k :=
  operandType_near_left (hs.trans hk) (isInteger_of_intLiteral? ha hs)
    (isInteger_of_intLiteral? hb ht) h

theorem near_infer (hd : d.Kinded K member result) {e : Expr} (he : K.AdmitsAll l member e) {t : HwType}
    (h : l.infer d e = .ok t) : t.Near (K.node e.id) := by
  -- A result has the type of its node.
  have hall {e : Expr} (hnone : ∀ {t : HwType}, d.result? e.id = none → l.infer d e = .ok t →
      t.Near (K.node e.id)) {t : HwType} (h : l.infer d e = .ok t) : t.Near (K.node e.id) := by
    cases hr : d.result? e.id with
    | none => exact hnone hr h
    | some r =>
      unfold infer at h
      simp only [hr] at h
      cases r with
      | none => cases h
      | some v =>
        obtain rfl := Except.ok.inj h
        exact hd.results _ _ hr
  refine hall (fun {t} hr h ↦ ?_) h
  clear * - hd he hr h hall
  have hself := he.self
  induction e using Expr.induction generalizing t with
  | literal id value =>
    rw [infer, hr] at h
    obtain rfl := Except.ok.inj h
    exact hself
  | getLocal id name | getParameter id name =>
    rw [infer, hr] at h
    cases hb : l.lookup d name with
    | error e =>
      rw [hb] at h
      cases h
    | ok b =>
      rw [hb] at h
      obtain rfl := Except.ok.inj h
      exact (hd.locals name b (require_eq_ok.1 hb)).trans hself
  | getField id field =>
    rw [infer, hr] at h
    cases h
  | unary id op operand ih =>
    rw [infer, hr] at h
    have hoperand := he.child (c := operand) (by simp [Expr.children])
    exact (hall (fun hr h ↦ ih hoperand hr h hoperand.self) h).trans hself
  | binary id op lhs rhs ihl ihr =>
    have hlhs := he.child (c := lhs) (by simp [Expr.children])
    have hrhs := he.child (c := rhs) (by simp [Expr.children])
    rw [Kinding.Admits] at hself
    rw [infer, hr] at h
    dsimp only at h
    split at h
    next hboolean =>
      rw [if_pos hboolean] at hself
      obtain rfl := Except.ok.inj h
      exact .inl hself.1.symm
    next hboolean =>
      rw [if_neg hboolean] at hself
      obtain ⟨a, ha, h⟩ := Synthesis.bind_eq_ok.1 h
      have hleft := hall (fun hr h ↦ ihl hlhs hr h hlhs.self) ha
      split at h
      next =>
        obtain rfl := Except.ok.inj h
        exact hleft.trans hself
      next =>
        obtain ⟨b, hb, h⟩ := Synthesis.bind_eq_ok.1 h
        have hright := hall (fun hr h ↦ ihr hrhs hr h hrhs.self) hb
        obtain ⟨-, -, h⟩ := Synthesis.bind_eq_ok.1 h
        exact near_operandType hlhs hrhs hleft hright hself (require_eq_ok.1 h)
  | call id target args =>
    rw [infer, hr] at h
    obtain ⟨c, hc, h⟩ := Synthesis.bind_eq_ok.1 h
    obtain ⟨r, hresult, h⟩ := Synthesis.bind_eq_ok.1 h
    exact (hself c (require_eq_ok.1 hc)).1 r hresult t (require_eq_ok.1 h)
  | newArray id element length =>
    rw [infer, hr] at h
    exact hself t h
  | arrayElement id array index iha ihi =>
    have harray := he.child (c := array) (by simp [Expr.children])
    rw [infer, hr] at h
    obtain ⟨a, ha, h⟩ := Synthesis.bind_eq_ok.1 h
    have htype := require_eq_ok.1 h
    obtain heq | ⟨hinteger, -⟩ := hall (fun hr h ↦ iha harray hr h harray.self) ha
    · exact hself t (heq ▸ htype)
    · rw [HwType.element?_of_isInteger hinteger] at htype
      cases htype
  | arrayLength id array iha =>
    rw [infer, hr] at h
    obtain rfl := Except.ok.inj h
    exact .inr ⟨.inl ⟨32, rfl⟩, hself⟩
  | conditional id condition ifTrue ifFalse ihc iht ihf =>
    have htrue := he.child (c := ifTrue) (by simp [Expr.children])
    have hfalse := he.child (c := ifFalse) (by simp [Expr.children])
    rw [infer, hr] at h
    obtain ⟨a, ha, h⟩ := Synthesis.bind_eq_ok.1 h
    obtain ⟨b, hb, h⟩ := Synthesis.bind_eq_ok.1 h
    obtain ⟨-, -, h⟩ := Synthesis.bind_eq_ok.1 h
    exact near_operandType htrue hfalse (hall (fun hr h ↦ iht htrue hr h htrue.self) ha)
      (hall (fun hr h ↦ ihf hfalse hr h hfalse.self) hb) hself.2.1 (require_eq_ok.1 h)
  | cast id type operand ih =>
    rw [infer, hr] at h
    exact (hself t (require_eq_ok.1 h)).2

theorem rendered_unary {op : UnaryOp} {w : Lowered} (hv : v.expr.Rendered) (h : l.unary op v = .ok w) :
    w.type = v.type ∧ w.expr.Rendered := by
  obtain ⟨-, cost, rfl⟩ := unary_eq_ok h
  exact ⟨rfl, hv.unary _⟩

/-- The operands of an operator meet in a type to which they can be converted. -/
theorem converts_operands {op : BinaryOp} {a b : Lowered} {t : HwType} (ha : a.Plain) (hb : b.Plain)
    (h : l.operands op a b = .ok t) : a.type.Converts t ∧ b.type.Converts t := by
  have hmeet := (operands_eq_ok h).1
  split at hmeet
  · obtain ⟨ha, hb, rfl⟩ := hmeet
    exact ⟨.inl ha, .inl hb⟩
  · obtain ⟨heq, rfl⟩ | ⟨hai, hbi⟩ := operandType_eq_some ha.isInteger hb.isInteger hmeet
    · exact ⟨.inl rfl, .inl heq.symm⟩
    · obtain ⟨t', ht', hti⟩ := operandType_of_isInteger hai hbi a.expr.intLiteral? b.expr.intLiteral?
      obtain rfl := Option.some.inj (hmeet.symm.trans ht')
      exact ⟨.inr ⟨hai, .inl hti⟩, .inr ⟨hbi, .inl hti⟩⟩

theorem rendered_binary {op : BinaryOp} {a b w : Lowered} (ha : a.Plain) (hb : b.Plain)
    (hra : a.expr.Rendered) (hrb : b.expr.Rendered) (h : l.binary op a b = .ok w) :
    w.expr.Rendered := by
  obtain ⟨-, cost, rfl⟩ | ⟨-, type, cost, htype, rfl⟩ := binary_eq_ok h
  · exact hra.binary _ _ hrb
  · obtain ⟨hca, hcb⟩ := converts_operands ha hb htype
    exact (Lowered.rendered_coerce hra hca).binary _ _ (Lowered.rendered_coerce hrb hcb)

/-- The result of an operator has nearly the type of the kinding if its left operand has. -/
theorem near_binary {id : NodeId} {op : BinaryOp} {lhs rhs : Expr} {a b w : Lowered}
    (hself : K.Admits l member (.binary id op lhs rhs)) (ha : a.Plain) (hb : b.Plain)
    (hta : a.type.Near (K.node lhs.id)) (h : l.binary op a b = .ok w) : w.type.Near (K.node id) := by
  rw [Kinding.Admits] at hself
  obtain ⟨x, y, -, htype⟩ := type_binary h
  split at htype
  next hshift =>
    have hneither : ¬(op.isComparison || op.isLogical) = true := by
      intro hboolean
      rw [isShift_of_boolean hboolean] at hshift
      cases hshift
    rw [if_neg hneither] at hself
    exact htype ▸ hta.trans hself
  next =>
    split at htype
    next hboolean =>
      rw [if_pos hboolean] at hself
      exact .inl (htype.trans hself.1.symm)
    next hboolean =>
      rw [if_neg hboolean] at hself
      exact operandType_near_left (hta.trans hself) ha.isInteger hb.isInteger htype

theorem near_lowered (hd : d.Kinded K member result) {name : String} {b : Binding}
    (hb : l.lookup d name = .ok b) :
    b.lowered.type.Near (K.name member name) ∧ b.lowered.expr.Rendered := by
  have hb := require_eq_ok.1 hb
  have htype := hd.locals name b hb
  obtain ⟨x, type, rfl⟩ | ⟨n, rfl⟩ := hd.regular.locals name b hb
  · exact ⟨htype, HwExpr.rendered_variable x⟩
  · exact ⟨htype, HwExpr.rendered_int _ _⟩

theorem kinded_expr (hd : d.Kinded K member result) {e : Expr} (he : K.AdmitsAll l member e)
    (h : l.expr e d = .ok (v, d')) :
    d'.Kinded K member result ∧ v.type.Near (K.node e.id) ∧ v.expr.Rendered := by
  rw [expr_eq_ok] at h
  induction h with
  | @known e d v hr =>
    obtain ⟨name, type, rfl⟩ := variable_of_regular hd.regular hr
    exact ⟨hd, hd.results _ _ hr, HwExpr.rendered_variable name⟩
  | @literal d id value =>
    refine ⟨hd, he.self, ?_⟩
    cases value with
    | bool value => exact HwExpr.rendered_bool value
    | int value width signed => exact HwExpr.rendered_int _ _
  | getLocal _ hb | getParameter _ hb =>
    obtain ⟨htype, hrendered⟩ := near_lowered hd hb
    exact ⟨hd, htype.trans he.self, hrendered⟩
  | unary _ _ hw ih =>
    obtain ⟨hd₁, htype, hrendered⟩ := ih hd (he.child (by simp [Expr.children]))
    obtain ⟨hw, hrendered⟩ := rendered_unary hrendered hw
    exact ⟨hd₁, hw ▸ htype.trans he.self, hrendered⟩
  | binary _ ha hb hw iha ihb =>
    obtain ⟨hd₁, hta, hra⟩ := iha hd (he.child (by simp [Expr.children]))
    obtain ⟨hd₂, -, hrb⟩ := ihb hd₁ (he.child (by simp [Expr.children]))
    have hpa := (shows_of_expr hd.regular ha.expr).1
    have hpb := (shows_of_expr hd₁.regular hb.expr).1
    exact ⟨hd₂, near_binary he.self hpa hpb hta hw, rendered_binary hpa hpb hra hrb hw⟩
  | newArray _ htype => exact ⟨hd, he.self _ htype, HwExpr.rendered_int _ _⟩
  | arrayElement _ _ _ hw iha ihi =>
    obtain ⟨hd₁, hta, hra⟩ := iha hd (he.child (by simp [Expr.children]))
    obtain ⟨hd₂, -, hri⟩ := ihi hd₁ (he.child (by simp [Expr.children]))
    obtain ⟨type, cost, htype, -, rfl⟩ := element_eq_ok hw
    refine ⟨hd₂, ?_, hra.index hri⟩
    obtain heq | ⟨hinteger, -⟩ := hta
    · exact he.self type (heq ▸ htype)
    · rw [HwType.element?_of_isInteger hinteger] at htype
      cases htype
  | arrayLength => exact ⟨hd, .inr ⟨.inl ⟨32, rfl⟩, he.self⟩, HwExpr.rendered_int _ _⟩
  | conditional _ hinfer _ _ _ _ _ ihc iha ihb =>
    obtain ⟨hcondition, htrue, hfalse⟩ := he.self
    obtain ⟨hd₁, htc, hrc⟩ := ihc hd (he.child (by simp [Expr.children]))
    obtain ⟨hd₂, hta, hra⟩ := iha hd₁ (he.child (by simp [Expr.children]))
    obtain ⟨hd₃, htb, hrb⟩ := ihb hd₂ (he.child (by simp [Expr.children]))
    have htype := near_infer hd he hinfer
    have hca := HwType.Converts.of_near ((hta.trans htrue).trans htype.symm)
    have hcb := HwType.Converts.of_near ((htb.trans hfalse).trans htype.symm)
    exact ⟨hd₃.choice (Lowered.rendered_coerce hrc (htc.converts hcondition))
      (Lowered.rendered_coerce hra hca) (Lowered.rendered_coerce hrb hcb) _, htype,
      HwExpr.rendered_variable _⟩
  | cast _ htarget _ _ ih =>
    obtain ⟨hd₁, htype, hrendered⟩ := ih hd (he.child (by simp [Expr.children]))
    obtain ⟨hconverts, hnear⟩ := he.self _ htarget
    exact ⟨hd₁, hnear, Lowered.rendered_coerce hrendered (htype.converts hconverts)⟩

end Lowering

end Fabric
