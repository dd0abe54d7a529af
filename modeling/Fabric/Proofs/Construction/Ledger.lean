import Fabric.Proofs.Calls.Plan
import Fabric.Proofs.Construction.Handshake

namespace Fabric

open Synthesis

namespace Draft

/-- From one draft to another only calls of the given statements take slots, and no result is lost;
without such statements there are no new ones. -/
structure Spends (groups : List NodeId) (d d' : Draft) : Prop where
  slots : ∀ key : NodeId × String, key.1 ∉ groups → d'.nextSlot key = d.nextSlot key
  results : ∀ id, (d.result? id).isSome → (d'.result? id).isSome
  quiet : groups = [] → d'.results = d.results
  depth : d'.loops.length = d.loops.length

namespace Spends

variable {groups groups' : List NodeId} {d d' d'' : Draft}

theorem of_eq (hs : d'.slots = d.slots) (hr : d'.results = d.results)
    (hl : d'.loops.length = d.loops.length) : Spends groups d d' where
  slots key _ := by rw [nextSlot, hs, nextSlot]
  results id h := by rwa [result?, hr]
  quiet _ := hr
  depth := hl

theorem of_sameScope (h : d.SameScope d') : Spends groups d d' :=
  of_eq h.slots h.results (congrArg List.length h.loops)

theorem refl (d : Draft) : Spends groups d d := of_eq rfl rfl rfl

theorem append (h : Spends groups d d') (h' : Spends groups' d' d'') :
    Spends (groups ++ groups') d d'' where
  slots key hkey := by
    rw [List.mem_append, not_or] at hkey
    rw [h'.slots key hkey.2, h.slots key hkey.1]
  results id hid := h'.results id (h.results id hid)
  quiet hnil := by
    obtain ⟨hg, hg'⟩ := List.append_eq_nil_iff.1 hnil
    rw [h'.quiet hg', h.quiet hg]
  depth := h'.depth.trans h.depth

theorem mono (h : Spends groups d d') (hsub : groups ⊆ groups') : Spends groups' d d' where
  slots key hkey := h.slots key fun hmem ↦ hkey (hsub hmem)
  results := h.results
  quiet hnil := by
    rw [hnil] at hsub
    exact h.quiet (List.subset_nil.1 hsub)
  depth := h.depth

theorem trans (h : Spends groups d d') (h' : Spends groups d' d'') : Spends groups d d'' := by
  refine (h.append h').mono ?_
  rw [List.append_subset]
  exact ⟨List.Subset.refl _, List.Subset.refl _⟩

end Spends

variable (d : Draft) {groups : List NodeId}

theorem spends_temporary (type : HwType) (comment : String) :
    d.Spends groups (d.temporary type comment).2 :=
  .of_eq rfl rfl rfl

theorem spends_declare (name : String) (type : HwType) (comment : String) :
    d.Spends groups (d.declare name type comment).2 := by
  unfold declare
  dsimp only
  split
  · exact .of_eq rfl rfl rfl
  · exact .refl d

theorem spends_bind (name : String) (b : Binding) : d.Spends groups (d.bind name b) :=
  .of_eq rfl rfl rfl

theorem spends_emit (s : HwStmt) (cost : Binary64) : d.Spends groups (d.emit s cost) :=
  .of_sameScope (d.sameScope_emit s cost)

theorem spends_reserve (cost : Binary64) : d.Spends groups (d.reserve cost) :=
  .of_sameScope (d.sameScope_reserve cost)

theorem spends_push (s : HwStmt) : d.Spends groups (d.push s) :=
  .of_eq rfl rfl rfl

theorem spends_collect (calls : List Invocation) (d : Draft) :
    d.Spends groups (collect calls d).2 := by
  induction calls generalizing d with
  | nil => exact .refl d
  | cons c rest ih =>
    unfold collect
    cases hc : c.returnType with
    | none => exact (d.spends_push _).trans (ih _)
    | some type =>
      have ht : d.Spends groups (d.temporary type ("result of " ++ c.target)).2 :=
        d.spends_temporary _ _
      exact ((ht.trans (spends_push _ _)).trans (spends_push _ _)).trans (ih _)

theorem spends_handshake (calls : List Invocation) : d.Spends groups (d.handshake calls).2 := by
  obtain ⟨label, heq⟩ := d.handshake_eq calls
  have hawait (d : Draft) : d.Spends groups (d.awaitCalls calls label) := .of_eq rfl rfl rfl
  rw [heq]
  exact ((Spends.of_sameScope (d.sameScope_openState _)).trans (hawait _)).trans
    (spends_collect calls _)

theorem spends_settleArguments (callee : String) (arguments : List Argument) (d : Draft) :
    d.Spends groups (settleArguments callee arguments d).2 := by
  induction arguments generalizing d with
  | nil => exact .refl d
  | cons a rest ih =>
    unfold settleArguments
    dsimp only
    split
    · exact ((d.spends_temporary _ _).trans (spends_emit _ _ _)).trans (ih _)
    · exact ih d

theorem spends_bindArguments (callee : String) (arguments : List Argument) (d : Draft) :
    d.Spends groups (d.bindArguments callee arguments) := by
  unfold bindArguments
  induction arguments generalizing d with
  | nil => exact .refl d
  | cons a rest ih =>
    rw [List.foldl_cons]
    exact (((d.spends_declare _ _ _).trans (spends_emit _ _ _)).trans (spends_bind _ _ _)).trans
      (ih _)

theorem spends_leaveCall (callee : String) (outer : Frame) :
    d.Spends groups (d.leaveCall callee outer) := by
  unfold leaveCall
  generalize (d.frame.returns ++ if d.isClosed then [] else [d.current]) = exits
  dsimp only
  split
  · exact .of_eq rfl rfl rfl
  · refine .trans (.of_eq rfl rfl rfl : d.Spends groups ({ d with frame := outer }.addState
      ("return from " ++ callee))) ?_
    exact .trans (.of_sameScope (sameScope_linkAll _ _ _)) (.of_eq rfl rfl rfl)

variable {d} {d' : Draft}

/-- An expression is open if it is a call, or an operand is. -/
theorem isPending_eq (e : Expr) :
    d.isPending e = (!d.isEvaluated e && (e.isCall || e.children.any d.isPending)) := by
  cases e <;> simp [isPending, Expr.isCall, Expr.children, Bool.or_assoc]

/-- An operand of an expression that is not open is not open either, unless the expression is
evaluated. -/
theorem isPending_child {e : Expr} (h : d.isPending e = false) (hr : d.result? e.id = none) :
    e.isCall = false ∧ ∀ c ∈ e.children, d.isPending c = false := by
  rw [isPending_eq, isEvaluated, hr] at h
  simpa using h

theorem isPending_mono (hr : ∀ id, (d.result? id).isSome → (d'.result? id).isSome) {e : Expr}
    (h : d.isPending e = false) : d'.isPending e = false := by
  induction e using Expr.induction_children with
  | step e ih =>
    cases he : d.result? e.id with
    | none =>
      obtain ⟨hcall, hchildren⟩ := isPending_child h he
      rw [isPending_eq, hcall, Bool.false_or, Bool.and_eq_false_iff]
      right
      rw [List.any_eq_false]
      intro c hc
      simp [ih c hc (hchildren c hc)]
    | some r =>
      rw [isPending_eq, isEvaluated, hr e.id (by rw [he]; rfl)]
      rfl

theorem Spends.isPending (h : d.Spends groups d') {e : Expr} (he : d.isPending e = false) :
    d'.isPending e = false :=
  isPending_mono h.results he

theorem isPending_of_containsCall {e : Expr} (h : e.containsCall = false) (d : Draft) :
    d.isPending e = false := by
  induction e using Expr.induction_children with
  | step e ih =>
    rw [Expr.containsCall, List.any_eq_false] at h
    have hcall := h e e.mem_nodes_self
    rw [isPending_eq, Bool.and_eq_false_iff, Bool.or_eq_false_iff, List.any_eq_false]
    refine .inr ⟨by simpa using hcall, fun c hc ↦ ?_⟩
    have hchild : c.containsCall = false := by
      rw [Expr.containsCall, List.any_eq_false]
      intro x hx
      exact h x (Expr.nodes_subset_of_mem_children hc hx)
    simp [ih c hc hchild]

end Draft

theorem HwType.meets_checkFits (t : HwType) (value : Int64) :
    (t.checkFits value).Meets fun _ ↦ True := by
  unfold checkFits
  split
  · exact meets_error nofun
  · exact meets_ok trivial

theorem HwExpr.meets_checkCoerce (e : HwExpr) (source target : HwType) :
    (e.checkCoerce source target).Meets fun _ ↦ True := by
  unfold checkCoerce
  split
  · exact meets_ok trivial
  · cases e with
    | int value type => exact target.meets_checkFits value
    | _ => exact meets_ok trivial

theorem Lowered.meets_checkCoerce (v : Lowered) (target : HwType) :
    (v.checkCoerce target).Meets fun _ ↦ True :=
  v.expr.meets_checkCoerce v.type target

theorem meets_checkOperands (lhs : HwType) (lhsConstant : Option Int64) (rhs : HwType)
    (rhsConstant : Option Int64) :
    (checkOperands lhs lhsConstant rhs rhsConstant).Meets fun _ ↦ True := by
  cases lhsConstant with
  | none =>
    cases rhsConstant with
    | none => exact meets_ok trivial
    | some value => exact lhs.meets_checkFits value
  | some value =>
    cases rhsConstant with
    | none => exact rhs.meets_checkFits value
    | some _ => exact meets_ok trivial

theorem meets_checkArguments (arguments : List Argument) :
    (checkArguments arguments).Meets fun _ ↦ True := by
  induction arguments with
  | nil => exact meets_ok trivial
  | cons a rest ih => exact (a.value.meets_checkCoerce a.type).bind fun _ _ ↦ ih

namespace Lowering

variable (l : Lowering) {d : Draft}

theorem meets_lookup (d : Draft) (name : String) : (l.lookup d name).Meets fun _ ↦ True :=
  (l.meets_require _ _).mono fun _ _ ↦ trivial

theorem meets_newArrayType (element : TypeRef) (length : Expr) :
    (l.newArrayType element length).Meets fun _ ↦ True := by
  refine (l.meets_require _ _).bind ?_
  intro type _
  refine (l.meets_require _ _).bind ?_
  intro count _
  exact meets_ok trivial

theorem meets_infer (d : Draft) (e : Expr) : (l.infer d e).Meets fun _ ↦ True := by
  have hrequire {α : Type} (construct : String) (o : Option α) :
      (l.require construct o).Meets fun _ ↦ True :=
    (l.meets_require construct o).mono fun _ _ ↦ trivial
  -- An expression that has a result has its type.
  have hresult {e : Expr} (h : d.result? e.id = none → (l.infer d e).Meets fun _ ↦ True) :
      (l.infer d e).Meets fun _ ↦ True := by
    cases hr : d.result? e.id with
    | none => exact h hr
    | some r =>
      unfold infer
      rw [hr]
      cases r with
      | none => exact l.meets_unsupported _
      | some v => exact meets_ok trivial
  induction e using Expr.induction with
  | literal id value =>
    refine hresult fun hr ↦ ?_
    rw [infer, hr]
    exact meets_ok trivial
  | getLocal id name | getParameter id name =>
    refine hresult fun hr ↦ ?_
    rw [infer, hr]
    exact (l.meets_lookup d name).map fun _ _ ↦ trivial
  | getField id f =>
    refine hresult fun hr ↦ ?_
    rw [infer, hr]
    exact l.meets_unsupported _
  | unary id op operand ih =>
    refine hresult fun hr ↦ ?_
    rw [infer, hr]
    exact ih
  | binary id op lhs rhs ihl ihr =>
    refine hresult fun hr ↦ ?_
    rw [infer, hr]
    dsimp only
    split
    · exact meets_ok trivial
    · refine ihl.bind ?_
      intro a _
      split
      · exact meets_ok trivial
      · refine ihr.bind ?_
        intro b _
        exact (meets_checkOperands _ _ _ _).bind fun _ _ ↦ hrequire _ _
  | call id target args =>
    refine hresult fun hr ↦ ?_
    rw [infer, hr]
    refine (l.meets_require _ _).bind ?_
    intro c _
    refine (l.meets_resultType c).bind ?_
    intro type _
    exact hrequire _ _
  | newArray id element length =>
    refine hresult fun hr ↦ ?_
    rw [infer, hr]
    exact l.meets_newArrayType element length
  | arrayElement id array index iha =>
    refine hresult fun hr ↦ ?_
    rw [infer, hr]
    refine iha.bind ?_
    intro type _
    exact hrequire _ _
  | arrayLength id array =>
    refine hresult fun hr ↦ ?_
    rw [infer, hr]
    exact meets_ok trivial
  | conditional id condition ifTrue ifFalse _ iht ihf =>
    refine hresult fun hr ↦ ?_
    rw [infer, hr]
    refine iht.bind ?_
    intro a _
    refine ihf.bind ?_
    intro b _
    exact (meets_checkOperands _ _ _ _).bind fun _ _ ↦ hrequire _ _
  | cast id type operand =>
    refine hresult fun hr ↦ ?_
    rw [infer, hr]
    exact hrequire _ _

theorem meets_unary (op : UnaryOp) (v : Lowered) : (l.unary op v).Meets fun _ ↦ True := by
  unfold unary
  split
  · exact l.meets_unsupported _
  · refine (l.meets_cost _ _ _).bind ?_
    intro cost _
    exact meets_ok trivial

theorem meets_operands (op : BinaryOp) (a b : Lowered) :
    (l.operands op a b).Meets fun _ ↦ True := by
  have htype {type : HwType} :
      (do
        if type = .boolean ∧ !op.isBoolean then l.unsupported "arithmetic on booleans"
        return type : Synthesis HwType).Meets fun _ ↦ True := by
    split
    · exact l.meets_unsupported _
    · exact meets_ok trivial
  unfold operands
  dsimp only
  split
  · split
    · exact l.meets_unsupported _
    · exact htype
  · refine (meets_checkOperands _ _ _ _).bind fun _ _ ↦ ?_
    exact (l.meets_require _ _).bind fun type _ ↦ htype

theorem meets_binary (op : BinaryOp) (a b : Lowered) : (l.binary op a b).Meets fun _ ↦ True := by
  unfold binary
  split
  · refine (l.meets_cost _ _ _).bind ?_
    intro cost _
    exact meets_ok trivial
  · refine (l.meets_operands op a b).bind ?_
    intro type _
    refine (l.meets_cost _ _ _).bind ?_
    intro cost _
    refine (a.meets_checkCoerce type).bind fun _ _ ↦ ?_
    exact (b.meets_checkCoerce type).bind fun _ _ ↦ meets_ok trivial

theorem meets_element (array index : Lowered) : (l.element array index).Meets fun _ ↦ True := by
  refine (l.meets_require _ _).bind ?_
  intro type _
  refine (l.meets_cost _ _ _).bind ?_
  intro cost _
  exact meets_ok trivial

/-- An expression that is not open is lowered without new results. -/
theorem meets_expr {e : Expr} (h : d.isPending e = false) :
    (l.expr e d).Meets fun x ↦ d.Spends [] x.2 := by
  have hresult {e : Expr} {d : Draft} (h : d.isPending e = false)
      (hnone : d.result? e.id = none → e.isCall = false → (∀ c ∈ e.children, d.isPending c = false) →
        (l.expr e d).Meets fun x ↦ d.Spends [] x.2) :
      (l.expr e d).Meets fun x ↦ d.Spends [] x.2 := by
    cases hr : d.result? e.id with
    | none =>
      obtain ⟨hcall, hchildren⟩ := Draft.isPending_child h hr
      exact hnone hr hcall hchildren
    | some r =>
      unfold expr
      rw [hr]
      cases r with
      | none => exact l.meets_unsupported _
      | some v => exact meets_ok (.refl d)
  induction e using Expr.induction generalizing d with
  | literal id value =>
    refine hresult h fun hr _ _ ↦ ?_
    rw [expr, hr]
    exact meets_ok (.refl d)
  | getLocal id name | getParameter id name =>
    refine hresult h fun hr _ _ ↦ ?_
    rw [expr, hr]
    refine (l.meets_lookup d name).bind ?_
    intro b _
    cases b with
    | «variable» x type => exact meets_ok (.refl d)
    | constant value type => exact meets_ok (.refl d)
  | getField id f =>
    refine hresult h fun hr _ _ ↦ ?_
    rw [expr, hr]
    exact l.meets_unsupported _
  | unary id op operand ih =>
    refine hresult h fun hr _ hops ↦ ?_
    rw [expr, hr]
    refine (ih (hops operand (by simp [Expr.children]))).bind ?_
    rintro ⟨v, d₁⟩ hd₁
    refine (l.meets_unary op v).bind ?_
    intro w _
    exact meets_ok hd₁
  | binary id op lhs rhs ihl ihr =>
    refine hresult h fun hr _ hops ↦ ?_
    rw [expr, hr]
    refine (ihl (hops lhs (by simp [Expr.children]))).bind ?_
    rintro ⟨a, d₁⟩ hd₁
    refine (ihr (hd₁.isPending (hops rhs (by simp [Expr.children])))).bind ?_
    rintro ⟨b, d₂⟩ hd₂
    refine (l.meets_binary op a b).bind ?_
    intro w _
    exact meets_ok (hd₁.trans hd₂)
  | call id target args =>
    refine hresult h fun _ hcall _ ↦ ?_
    cases hcall
  | newArray id element length =>
    refine hresult h fun hr _ _ ↦ ?_
    rw [expr, hr]
    refine (l.meets_newArrayType element length).bind ?_
    intro type _
    exact meets_ok (.refl d)
  | arrayElement id array index iha ihi =>
    refine hresult h fun hr _ hops ↦ ?_
    rw [expr, hr]
    refine (iha (hops array (by simp [Expr.children]))).bind ?_
    rintro ⟨a, d₁⟩ hd₁
    refine (ihi (hd₁.isPending (hops index (by simp [Expr.children])))).bind ?_
    rintro ⟨i, d₂⟩ hd₂
    refine (l.meets_element a i).bind ?_
    intro w _
    exact meets_ok (hd₁.trans hd₂)
  | arrayLength id array =>
    refine hresult h fun hr _ _ ↦ ?_
    rw [expr, hr]
    refine (l.meets_infer d array).bind ?_
    intro type _
    cases type with
    | array element length => exact meets_ok (.refl d)
    | _ => exact l.meets_unsupported _
  | conditional id condition ifTrue ifFalse ihc iht ihf =>
    refine hresult h fun hr _ hops ↦ ?_
    rw [expr, hr]
    refine (l.meets_infer d _).bind ?_
    intro type _
    refine (ihc (hops condition (by simp [Expr.children]))).bind ?_
    rintro ⟨c, d₁⟩ hd₁
    refine (iht (hd₁.isPending (hops ifTrue (by simp [Expr.children])))).bind ?_
    rintro ⟨a, d₂⟩ hd₂
    have hd₂ := hd₁.trans hd₂
    refine (ihf (hd₂.isPending (hops ifFalse (by simp [Expr.children])))).bind ?_
    rintro ⟨b, d₃⟩ hd₃
    refine (a.meets_checkCoerce type).bind fun _ _ ↦ ?_
    refine (b.meets_checkCoerce type).bind fun _ _ ↦ ?_
    have ht : d₃.Spends [] (d₃.temporary type "conditional value").2 := d₃.spends_temporary _ _
    exact meets_ok (((hd₂.trans hd₃).trans ht).trans (Draft.spends_emit _ _ _))
  | cast id type operand ih =>
    refine hresult h fun hr _ hops ↦ ?_
    rw [expr, hr]
    refine (l.meets_require _ _).bind ?_
    intro target _
    refine (ih (hops operand (by simp [Expr.children]))).bind ?_
    rintro ⟨v, d₁⟩ hd₁
    exact (v.meets_checkCoerce target).bind fun _ _ ↦ meets_ok hd₁

theorem meets_evalArguments (callee : String) {params : List (Parameter × Expr)}
    (h : ∀ x ∈ params, d.isPending x.2 = false) :
    (l.evalArguments callee params d).Meets fun x ↦ d.Spends [] x.2 := by
  induction params generalizing d with
  | nil => exact meets_ok (.refl d)
  | cons x rest ih =>
    obtain ⟨q, e⟩ := x
    obtain ⟨he, hrest⟩ := List.forall_mem_cons.1 h
    unfold evalArguments
    refine (l.meets_parameterType callee q).bind ?_
    intro type _
    refine (l.meets_expr he).bind ?_
    rintro ⟨v, d₁⟩ hd₁
    refine (ih fun y hy ↦ hd₁.isPending (hrest y hy)).bind ?_
    rintro ⟨arguments, d₂⟩ hd₂
    exact meets_ok (hd₁.trans hd₂)

theorem meets_arguments (h : MemberHandle) {args : List Expr}
    (hargs : ∀ a ∈ args, d.isPending a = false) :
    (l.arguments h args d).Meets fun x ↦ d.Spends [] x.2 := by
  unfold arguments
  dsimp only
  split
  · exact l.meets_unsupported _
  · refine l.meets_evalArguments _ ?_
    rintro ⟨q, e⟩ hx
    exact hargs e (List.of_mem_zip hx).2

end Lowering

end Fabric
