import Fabric.Proofs.Source.Knowledge

namespace Fabric

variable {V ι : Type} {I : Interpretation V} {M : Machine ι}

theorem operandType_self {type type' : HwType} {a b : Option Int64}
    (h : operandType type a type b = some type') : type' = type := by
  have hpromote : type.promote type = some type := if_pos rfl
  unfold operandType at h
  rw [hpromote] at h
  cases a <;> cases b <;> dsimp only at h
  all_goals first | exact (Option.some.inj h).symm | skip
  all_goals split at h <;> exact (Option.some.inj h).symm

namespace Draft

variable {d d' : Draft} {e : Expr}

theorem Extends.isPending (h : d.Extends [] d') (hp : d'.isPending e = false) :
    d.isPending e = false :=
  isPending_mono (fun i hi ↦ by rwa [h.results i List.not_mem_nil] at hi) hp

theorem isPending_of_children (hcall : e.isCall = false)
    (h : ∀ c ∈ e.children, d.isPending c = false) : d.isPending e = false := by
  rw [isPending_eq, hcall, Bool.false_or, Bool.and_eq_false_iff]
  right
  rw [List.any_eq_false]
  intro c hc
  simp [h c hc]

end Draft

namespace Lowering

variable {l : Lowering} {d d' : Draft} {e : Expr}

theorem binary_logic {op : BinaryOp} (hop : op.isBoolean) {a b v : Lowered}
    (ha : a.type = .boolean) (hb : b.type = .boolean) (h : l.binary op a b = .ok v) :
    v.type = .boolean ∧ v.expr = .binary op.hardware a.expr b.expr .boolean := by
  have hshift : op.isShift = false := by cases op <;> first | rfl | cases hop
  obtain ⟨hyes, -⟩ | ⟨-, type, cost, htype, rfl⟩ := binary_eq_ok h
  · cases hshift.symm.trans hyes
  have htype : type = .boolean := by
    have hmeet := (operands_eq_ok htype).1
    rw [ha, hb] at hmeet
    split at hmeet
    · exact hmeet.2.2
    · exact operandType_self hmeet
  subst htype
  rw [ite_self]
  exact ⟨rfl, by rw [Lowered.coerce_self ha, Lowered.coerce_self hb]⟩

theorem infer_logic (he : e.IsLogic l) (hd : d.Logical l) {type : HwType}
    (h : l.infer d e = .ok type) : type = .boolean := by
  induction e using Expr.induction_children generalizing type with
  | step e ih =>
    cases hr : d.result? e.id with
    | some r =>
      obtain ⟨v, rfl, hv⟩ := hd.results e.id r hr
      unfold infer at h
      rw [hr] at h
      obtain rfl := Except.ok.inj h
      exact hv
    | none =>
      have hchild {c : Expr} (hc : c ∈ e.children) {type : HwType} (h : l.infer d c = .ok type) :
          type = .boolean := ih c hc (he.child hc) h
      have hadmits := he e e.mem_nodes_self
      unfold infer at h
      rw [hr] at h
      cases e with
      | literal id value =>
        cases value with
        | bool value => exact (Except.ok.inj h).symm
        | int => exact hadmits.elim
      | getParameter id name =>
        have hlookup : l.lookup d name = .ok (.variable name .boolean) :=
          require_eq_ok.2 (hd.bound name hadmits)
        dsimp only at h
        rw [hlookup] at h
        exact (Except.ok.inj h).symm
      | unary id op operand => exact hchild (by simp [Expr.children]) h
      | binary id op lhs rhs =>
        dsimp only at h
        split at h
        · exact (Except.ok.inj h).symm
        · obtain ⟨a, ha, h⟩ := Synthesis.bind_eq_ok.1 h
          obtain rfl := hchild (by simp [Expr.children]) ha
          split at h
          · exact (Except.ok.inj h).symm
          · obtain ⟨b, hb, h⟩ := Synthesis.bind_eq_ok.1 h
            obtain rfl := hchild (by simp [Expr.children]) hb
            obtain ⟨-, -, h⟩ := Synthesis.bind_eq_ok.1 h
            exact operandType_self (require_eq_ok.1 h)
      | conditional id condition ifTrue ifFalse =>
        obtain ⟨a, ha, h⟩ := Synthesis.bind_eq_ok.1 h
        obtain rfl := hchild (by simp [Expr.children]) ha
        obtain ⟨b, hb, h⟩ := Synthesis.bind_eq_ok.1 h
        obtain rfl := hchild (by simp [Expr.children]) hb
        obtain ⟨-, -, h⟩ := Synthesis.bind_eq_ok.1 h
        exact operandType_self (require_eq_ok.1 h)
      | call id target args =>
        obtain ⟨k, hk, -, htype, -⟩ := hadmits
        obtain ⟨k', hk', h⟩ := Synthesis.bind_eq_ok.1 h
        obtain rfl := Option.some.inj (hk.symm.trans (require_eq_ok.1 hk'))
        obtain ⟨r, hr', h⟩ := Synthesis.bind_eq_ok.1 h
        unfold resultType at hr'
        rw [htype] at hr'
        obtain rfl := Except.ok.inj hr'
        exact (Option.some.inj (require_eq_ok.1 h)).symm
      | _ => exact hadmits.elim

end Lowering

namespace Execution

variable (x : Execution I M) (name : DraftTarget → ι) (z : Draft) (Γ : Interface) (l : Lowering)
  (w : World V)

structure Evaluates (e : Expr) (d : Draft) (v : Lowered) (d' : Draft) : Prop where
  type : v.type = .boolean
  keeps : d.Extends [] d'
  settled : d.isPending e = false
  carries : x.Carries name z Γ True d d' (v.Typed Γ) (fun m ↦ d.Informed I l w m.values e)
    fun m m' ↦ m.Computes d.temporaries m' ∧
      v.expr.Yields I d'.temporaries m'.values (e.truth I l.program.tree w)

variable {x name z Γ l w} {d d₁ d₂ d₃ d' : Draft} {e : Expr} {v : Lowered}

namespace Evaluates

/-- An expression for which nothing is put into the open state. -/
theorem here (hv : d.Evaluates Γ v d) (htype : v.type = .boolean) (hp : d.isPending e = false)
    (hyields : ∀ values : String → V, d.Informed I l w values e →
      v.expr.Yields I d.temporaries values (e.truth I l.program.tree w)) :
    x.Evaluates name z Γ l w e d v d where
  type := htype
  keeps := .refl [] d
  settled := hp
  carries := ⟨.ofEvaluates hv, fun _ _ t m _ _ _ hs hm ↦
    ⟨t, m, .refl t, hs, .refl _ m, hyields m.values hm⟩⟩

theorem literal {id : NodeId} {value : Bool} (hv : d.Evaluates Γ (.ofLiteral (.bool value)) d) :
    x.Evaluates name z Γ l w (.literal id (.bool value)) d (.ofLiteral (.bool value)) d := by
  refine here hv rfl (by simp [Draft.isPending]) fun values _ inputs values' _ ↦ ?_
  rw [Expr.truth, Expr.perform]
  rfl

theorem getParameter {id : NodeId} {parameter : String} (hs : l.Supplies parameter)
    (hv : d.Evaluates Γ (.ofVariable parameter .boolean) d) :
    x.Evaluates name z Γ l w (.getParameter id parameter) d (.ofVariable parameter .boolean) d := by
  refine here hv rfl (by simp [Draft.isPending]) fun values hi ↦ ?_
  rw [Expr.truth, Expr.perform]
  exact .ofVariable (fun k _ ↦ ne_tempName hs.1 k) (hi.parameters parameter hs)

theorem unary (hI : I.IsBoolean) {id : NodeId} {operand : Expr} {a : Lowered}
    (hev : d.isEvaluated (.unary id .logicNot operand) = false)
    (ha : x.Evaluates name z Γ l w operand d a d') (hv : l.unary .logicNot a = .ok v) :
    x.Evaluates name z Γ l w (.unary id .logicNot operand) d v d' := by
  obtain ⟨-, cost, rfl⟩ := Lowering.unary_eq_ok hv
  refine ⟨ha.type, ha.keeps, Draft.isPending_of_children rfl ?_, ?_⟩
  · simpa [Expr.children] using ha.settled
  · refine ha.carries.conseq (fun h ↦ h) (fun _ h ↦ Lowering.typed_unary hv h)
      (fun m hm ↦ hm.child hev (by simp [Expr.children])) fun m m' _ hpost ↦ ?_
    refine ⟨hpost.1, fun inputs values hagree ↦ ?_⟩
    rw [HwExpr.eval, hpost.2 inputs values hagree, UnaryOp.hardware, hI.not, Expr.truth_unary]

theorem binary (hI : I.IsBoolean) {id : NodeId} {op : BinaryOp} (hop : op.isBoolean) {lhs rhs : Expr}
    {a b : Lowered} (hev : d.isEvaluated (.binary id op lhs rhs) = false)
    (ha : x.Evaluates name z Γ l w lhs d a d₁) (hb : x.Evaluates name z Γ l w rhs d₁ b d')
    (hv : l.binary op a b = .ok v) : x.Evaluates name z Γ l w (.binary id op lhs rhs) d v d' := by
  obtain ⟨htype, hexpr⟩ := Lowering.binary_logic hop ha.type hb.type hv
  refine ⟨htype, ha.keeps.trans hb.keeps, Draft.isPending_of_children rfl ?_, ?_⟩
  · simpa [Expr.children] using ⟨ha.settled, ha.keeps.isPending hb.settled⟩
  · have hl := ha.carries.conseq (fun h ↦ h) (fun _ h ↦ h)
      (fun m (hm : d.Informed I l w m.values (.binary id op lhs rhs)) ↦
        hm.child hev (by simp [Expr.children])) fun m m' _ h ↦ h
    have hboth := hl.seq hb.carries (fun _ _ ↦ trivial)
      (fun _ hat hbt ↦ Lowering.typed_binary hv hat hbt) fun m m₁ hm hpost ↦
        (hm.child hev (by simp [Expr.children])).keep ha.keeps (List.disjoint_nil_right _)
          hpost.1.values
    refine hboth.conseq (fun h ↦ h) (fun _ h ↦ h) (fun m hm ↦ hm) fun m m' _ hpost ↦ ?_
    obtain ⟨m₁, ⟨hcomputes, hyields⟩, hcomputes', hyields'⟩ := hpost
    refine ⟨hcomputes.trans ha.keeps.temporaries hcomputes', fun inputs values hagree ↦ ?_⟩
    have hleft := (hyields.mono hb.keeps.temporaries hcomputes'.values) inputs values hagree
    rw [hexpr, HwExpr.eval, hleft, hyields' inputs values hagree, hI.binary op hop,
      Expr.truth_binary]

/-- Both branches are evaluated, and one of the values is put into a temporary. -/
theorem conditional (hI : I.IsBoolean) (hM : M.Realizes name z.code) {id : NodeId}
    {condition ifTrue ifFalse : Expr} {c a b : Lowered}
    (hev : d.isEvaluated (.conditional id condition ifTrue ifFalse) = false)
    (hc : x.Evaluates name z Γ l w condition d c d₁) (ha : x.Evaluates name z Γ l w ifTrue d₁ a d₂)
    (hb : x.Evaluates name z Γ l w ifFalse d₂ b d₃) (comment : String) (cost : Binary64) :
    x.Evaluates name z Γ l w (.conditional id condition ifTrue ifFalse) d
      (.ofVariable (tempName d₃.temporaries) .boolean)
      ((d₃.temporary .boolean comment).2.emit (.branch (c.coerce .boolean)
        [.setVariable (tempName d₃.temporaries) (a.coerce .boolean)]
        [.setVariable (tempName d₃.temporaries) (b.coerce .boolean)]) cost) := by
  let e : Expr := .conditional id condition ifTrue ifFalse
  have hkeeps := (hc.keeps.trans ha.keeps).trans hb.keeps
  have hclosed : ∀ k ∈ e.children, d.isPending k = false := by
    simpa [e, Expr.children] using ⟨hc.settled, hc.keeps.isPending ha.settled,
      (hc.keeps.trans ha.keeps).isPending hb.settled⟩
  refine ⟨rfl, (hkeeps.trans (.temporary d₃ .boolean comment)).trans (.emit _ _ cost),
    Draft.isPending_of_children rfl hclosed, ?_⟩
  have hchild {k : Expr} (hk : k ∈ e.children) {m : Memory V} (hm : d.Informed I l w m.values e) :=
    hm.child hev hk
  have h₁ := hc.carries.conseq (fun h ↦ h) (fun _ h ↦ h)
    (fun m (hm : d.Informed I l w m.values e) ↦ hchild (by simp [e, Expr.children]) hm)
    fun m m' _ h ↦ h
  have h₂ := h₁.seq ha.carries (fun _ _ ↦ trivial) (fun _ hct hat ↦ And.intro hct hat)
    fun m m₁ hm hpost ↦ (hchild (by simp [e, Expr.children]) hm).keep hc.keeps
      (List.disjoint_nil_right _) hpost.1.values
  have h₃ := h₂.seq hb.carries (fun _ _ ↦ trivial) (fun _ hct hbt ↦ And.intro hct hbt) (by
    rintro m m₂ hm ⟨m₁, ⟨hcomputes, -⟩, hcomputes', -⟩
    exact (hchild (by simp [e, Expr.children]) hm).keep (hc.keeps.trans ha.keeps)
      (List.disjoint_nil_right _) (hcomputes.trans hc.keeps.temporaries hcomputes').values)
  have h₄ := h₃.seq (Carries.temporary h₃.opened .boolean comment (P := True)) (fun _ _ ↦ trivial)
    (fun _ htyped hd ↦ And.intro htyped hd) fun _ _ _ _ ↦ trivial
  have h₅ := h₄.seq (Carries.emit hM h₄.opened (s := .branch (c.coerce .boolean)
      [.setVariable (tempName d₃.temporaries) (a.coerce .boolean)]
      [.setVariable (tempName d₃.temporaries) (b.coerce .boolean)]) (fun _ _ ↦ rfl) cost)
    (fun _ ht ↦ ⟨ht.1.1.1.coerce _, ⟨HwStmt.typed_setVariable ht.2 (ht.1.1.2.coerce _), trivial⟩,
      HwStmt.typed_setVariable ht.2 (ht.1.2.coerce _), trivial⟩)
    (fun _ ht _ ↦ HwExpr.HasType.variable ht.2) fun _ _ _ _ ↦ trivial
  refine h₅.conseq (fun h ↦ h) (fun _ h ↦ h) (fun _ hm ↦ hm) ?_
  rintro m m' - ⟨m₃, ⟨_, ⟨m₂, ⟨m₁, ⟨hcomputes₁, hyc⟩, hcomputes₂, hya⟩, hcomputes₃, hyb⟩, rfl⟩,
    inputs, rfl⟩
  have hcomputes := (hcomputes₁.trans hc.keeps.temporaries hcomputes₂).trans
    (hc.keeps.trans ha.keeps).temporaries hcomputes₃
  have hc' := (hyc.mono ha.keeps.temporaries hcomputes₂.values).mono hb.keeps.temporaries
    hcomputes₃.values
  have ha' := hya.mono hb.keeps.temporaries hcomputes₃.values
  have hexec : HwStmt.exec I inputs (.branch (c.coerce .boolean)
      [.setVariable (tempName d₃.temporaries) (a.coerce .boolean)]
      [.setVariable (tempName d₃.temporaries) (b.coerce .boolean)]) m₃ =
      m₃.setVariable (tempName d₃.temporaries) (I.bool (e.truth I l.program.tree w)) := by
    rw [HwStmt.exec, Lowered.coerce_self hc.type, Lowered.coerce_self ha.type,
      Lowered.coerce_self hb.type, hc'.eval, hI.truth, Expr.truth_conditional]
    simp only [HwStmt.execAll, HwStmt.setVariable, HwStmt.exec, ha'.eval, hyb.eval]
    split <;> rfl
  rw [hexec]
  refine ⟨hcomputes.trans hkeeps.temporaries (.set m₃ (Nat.le_refl _) _), ?_⟩
  refine .temporary ?_ (if_pos rfl)
  rw [Draft.temporaries_emit]
  exact Nat.lt_succ_self _

theorem ofExpr (hI : I.IsBoolean) (hM : M.Realizes name z.code) (he : e.IsLogic l)
    (hd : d.Logical l) (ho : d.isClosed = false) (h : l.expr e d = .ok (v, d')) :
    x.Evaluates name z Γ l w e d v d' := by
  have hvalue {d d' : Draft} {e : Expr} {v : Lowered} (h : l.Translates e d v d')
      (ho : d.isClosed = false) : d.Evaluates Γ v d' :=
    Lowering.expr_evaluates h.expr ho
  rw [Lowering.expr_eq_ok] at h
  induction h with
  | @known e d u hr =>
    obtain ⟨u', hu, htype⟩ := hd.results e.id _ hr
    obtain rfl := Option.some.inj hu
    refine here (hvalue (.known hr) ho) htype ?_ fun values hi ↦ hi.known e .here u hr
    rw [Draft.isPending_eq, Draft.isEvaluated, hr]
    rfl
  | @literal d id value hr =>
    cases value with
    | bool value => exact literal (hvalue (.literal hr) ho)
    | int => exact (he _ (Expr.mem_nodes_self _)).elim
  | @getParameter d id parameter b hr hb =>
    have hadmits := he _ (Expr.mem_nodes_self _)
    have hlookup : l.lookup d parameter = .ok (.variable parameter .boolean) :=
      Lowering.require_eq_ok.2 (hd.bound parameter hadmits)
    obtain rfl := Except.ok.inj (hlookup.symm.trans hb)
    exact getParameter hadmits (hvalue (.getParameter hr hb) ho)
  | @unary d d₁ id op operand a b hr _ hb ih =>
    obtain rfl : op = .logicNot := he _ (Expr.mem_nodes_self _)
    have ha := ih (he.child (by simp [Expr.children])) hd ho
    exact unary hI (Lowering.isEvaluated_of_none hr) ha hb
  | binary hr _ _ hu iha ihb =>
    have hadmits := he _ (Expr.mem_nodes_self _)
    have hl := iha (he.child (by simp [Expr.children])) hd ho
    have hr' := ihb (he.child (by simp [Expr.children])) (hd.kept hl.keeps) hl.carries.opened
    exact binary hI hadmits (Lowering.isEvaluated_of_none hr) hl hr' hu
  | conditional hr htype _ _ _ _ _ ihc iha ihb =>
    obtain rfl := Lowering.infer_logic he hd htype
    have hec := ihc (he.child (by simp [Expr.children])) hd ho
    have hd₁ := hd.kept hec.keeps
    have hea := iha (he.child (by simp [Expr.children])) hd₁ hec.carries.opened
    have heb := ihb (he.child (by simp [Expr.children])) (hd₁.kept hea.keeps) hea.carries.opened
    exact conditional hI hM (Lowering.isEvaluated_of_none hr) hec hea heb _ _
  | _ => exact (he _ (Expr.mem_nodes_self _)).elim

end Evaluates

end Execution

end Fabric
