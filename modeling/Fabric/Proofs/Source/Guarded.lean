import Fabric.Proofs.Source.Preparation

namespace Fabric

open scoped List

variable {V ι : Type} {I : Interpretation V} {M : Machine ι}

def BinaryOp.branches (op : BinaryOp) (right join : Nat) : Nat × Nat :=
  if op = .logicAnd then (right, join) else (join, right)

theorem BinaryOp.branch_settles {op : BinaryOp} (hop : op.isLogical) (a : Bool) (right join : Nat) :
    (if a then (op.branches right join).1 else (op.branches right join).2) =
      if !op.settles a then right else join := by
  cases op with
  | logicAnd => cases a <;> rfl
  | logicOr => cases a <;> rfl
  | _ => cases hop

section

variable {tree : SyntaxTree} {w : World V} {d : Draft} {id : NodeId}

theorem Expr.truth_shortCircuit {op : BinaryOp} (hop : op.isLogical) (lhs rhs : Expr) :
    (Expr.binary id op lhs rhs).truth I tree w =
      if !op.settles (lhs.truth I tree w) then rhs.truth I tree w else lhs.truth I tree w := by
  rw [Expr.truth_binary]
  cases hs : op.settles (lhs.truth I tree w) with
  | true => exact BinaryOp.onBooleans_of_settles hs _
  | false => exact BinaryOp.onBooleans_of_not_settles hop hs _

theorem Expr.truth_choice (condition ifTrue ifFalse : Expr) :
    (Expr.conditional id condition ifTrue ifFalse).truth I tree w =
      (if condition.truth I tree w then ifTrue else ifFalse).truth I tree w := by
  rw [Expr.truth_conditional, apply_ite (Expr.truth I tree w)]

/-- When the first operand of a short-circuit operator is evaluated, the second one is left if the
first one does not decide. -/
theorem Draft.owed_shortCircuit {op : BinaryOp} {lhs rhs : Expr}
    (hg : (Expr.binary id op lhs rhs).isGuarded)
    (hev : d.isEvaluated (.binary id op lhs rhs) = false) (hlhs : d.isPending lhs = false) :
    d.owed I tree w (.binary id op lhs rhs) =
      if !op.settles (lhs.truth I tree w) then d.owed I tree w rhs else 0 := by
  rw [owed.eq_def, hev, if_neg Bool.false_ne_true]
  dsimp only
  rw [hg, Bool.true_and, owed_of_not_pending hlhs, zero_add]
  cases op.settles (lhs.truth I tree w) <;> rfl

/-- When the condition of a conditional expression is evaluated, one of the two branches is left. -/
theorem Draft.owed_choice {condition ifTrue ifFalse : Expr}
    (hg : (Expr.conditional id condition ifTrue ifFalse).isGuarded)
    (hev : d.isEvaluated (.conditional id condition ifTrue ifFalse) = false)
    (hcondition : d.isPending condition = false) :
    d.owed I tree w (.conditional id condition ifTrue ifFalse) =
      d.owed I tree w (if condition.truth I tree w then ifTrue else ifFalse) := by
  rw [owed.eq_def, hev, if_neg Bool.false_ne_true]
  dsimp only
  rw [if_pos hg, owed_of_not_pending hcondition, zero_add, apply_ite (owed I tree w d)]

end

theorem Draft.Extends.fork {ids : List NodeId} (d : Draft) (label : String) :
    d.Extends ids ((d.addState label).enter d.nextState) :=
  .ofScope (d.sameScope_fork label) rfl

namespace Execution

variable (x : Execution I M) (name : DraftTarget → ι) (z : Draft) (Γ : Interface) (l : Lowering)
  (w : World V)

def Readies (prepare : Expr → Draft → Synthesis Draft) (e : Expr) : Prop :=
  ∀ ⦃d d' : Draft⦄, d.Logical l → d.isClosed = false → prepare e d = .ok d' →
    ∃ made, x.Prepares name z Γ l w e d made d'

variable {x name z Γ l w} {d d' : Draft} {prepare : Expr → Draft → Synthesis Draft}

theorem Evaluates.store (hM : M.Realizes name z.code) {e : Expr} {v : Lowered}
    (h : x.Evaluates name z Γ l w e d v d') {k : Nat} (hk : k ≤ d.temporaries) :
    x.Carries name z Γ (Γ.Declares (tempName k) .boolean) d
      (d'.emit (.setVariable (tempName k) (v.coerce .boolean)) v.cost) True
      (fun m ↦ d.Informed I l w m.values e)
      fun m m' ↦ m.Computes k m' ∧ m'.values (tempName k) = I.bool (e.truth I l.program.tree w) := by
  have hfirst : x.Carries name z Γ (Γ.Declares (tempName k) .boolean) d d' (v.Typed Γ)
      (fun m ↦ d.Informed I l w m.values e) _ :=
    h.carries.conseq (fun _ ↦ trivial) (fun _ h ↦ h) (fun _ h ↦ h) fun m m' _ h ↦ h
  have hall := hfirst.seq (Carries.emit hM hfirst.opened
    (s := .setVariable (tempName k) (v.coerce .boolean)) (HwStmt.isPlain_setVariable _ _) v.cost)
    (fun hdeclared hv ↦ HwStmt.typed_setVariable hdeclared (hv.coerce .boolean))
    (fun _ _ _ ↦ trivial) fun _ _ _ _ ↦ trivial
  refine hall.conseq (fun h ↦ h) (fun _ h ↦ h) (fun _ h ↦ h) ?_
  rintro m m' - ⟨m₁, ⟨hcomputes, hyields⟩, inputs, rfl⟩
  have hexec : HwStmt.exec I inputs (.setVariable (tempName k) (v.coerce .boolean)) m₁ =
      m₁.setVariable (tempName k) (I.bool (e.truth I l.program.tree w)) := by
    rw [Lowered.coerce_self h.type, HwStmt.setVariable, HwStmt.exec, hyields.eval]
  rw [hexec]
  exact ⟨(hcomputes.mono hk).trans (Nat.le_refl k) (.set m₁ (Nat.le_refl k) _), if_pos rfl⟩

theorem Carries.taken (ho : d.isClosed = false) (comment : String) (pre : Memory V → Prop) :
    x.Carries name z Γ True d (d.temporary .boolean comment).2
      (Γ.Declares (tempName d.temporaries) .boolean) pre fun m m' ↦ m' = m :=
  (Carries.temporary ho .boolean comment (P := True)).conseq (fun h ↦ h) (fun _ h ↦ h)
    (fun _ _ ↦ trivial) fun _ _ _ h ↦ h

section

variable {e : Expr} {v : Lowered} {d₁ : Draft} {comment : String} (ho : d.isClosed = false)
  (hM : M.Realizes name z.code)
  (h : x.Evaluates name z Γ l w e (d.temporary .boolean comment).2 v d₁)

include ho hM h

theorem Evaluates.stored : x.Carries name z Γ True d
    (d₁.emit (.setVariable (tempName d.temporaries) (v.coerce .boolean)) v.cost)
    (Γ.Declares (tempName d.temporaries) .boolean)
    (fun m ↦ m.Rests I l.program ∧ d.Informed I l w m.values e)
    fun m m' ↦ m.Computes d.temporaries m' ∧
      m'.values (tempName d.temporaries) = I.bool (e.truth I l.program.tree w) := by
  refine ((Carries.taken ho comment _).seq (h.store hM (Nat.le_succ _)) (fun _ h ↦ h)
    (fun _ h _ ↦ h) ?_).conseq (fun h ↦ h) (fun _ h ↦ h) (fun _ h ↦ h) ?_
  · rintro m m' ⟨-, hm⟩ rfl
    exact hm.keep (.temporary d .boolean comment) (List.disjoint_nil_right _) (.refl _ _)
  · rintro m m' - ⟨_, rfl, hpost⟩
    exact hpost

theorem Evaluates.reserved : x.Carries name z Γ True d (d₁.reserve v.cost)
    (Γ.Declares (tempName d.temporaries) .boolean ∧ v.Typed Γ)
    (fun m ↦ m.Rests I l.program ∧ d.Informed I l w m.values e)
    fun m m' ↦ m.Computes d.temporaries m' ∧
      v.expr.Yields I (d₁.reserve v.cost).temporaries m'.values (e.truth I l.program.tree w) := by
  have hboth := (Carries.taken ho comment fun m ↦
    m.Rests I l.program ∧ d.Informed I l w m.values e).seq h.carries (fun _ _ ↦ trivial)
      (fun _ hd hv ↦ And.intro hd hv) (by
        rintro m m' ⟨-, hm⟩ rfl
        exact hm.keep (.temporary d .boolean comment) (List.disjoint_nil_right _) (.refl _ _))
  refine (hboth.seq (Carries.reserve hM hboth.opened v.cost) (fun _ h ↦ h)
    (fun _ _ h ↦ h) fun _ _ _ _ ↦ trivial).conseq (fun h ↦ h) (fun _ h ↦ h) (fun _ h ↦ h) ?_
  rintro m m' - ⟨_, ⟨_, rfl, hcomputes, hyields⟩, rfl⟩
  refine ⟨hcomputes.mono (Nat.le_succ _), hyields.mono ?_ (.refl _ _)⟩
  exact (Draft.temporaries_reserve d₁ _).ge

end

theorem Stores.ofStoreIn (hx : x.Hosts name z Γ l w) {e : Expr} (he : e.IsLogic l)
    (hprepare : x.Readies name z Γ l w prepare e) (hd : d.Logical l) (ho : d.isClosed = false)
    {k : Nat} (hk : k ≤ d.temporaries)
    (h : l.storeIn (tempName k) .boolean prepare e d = .ok d') :
    x.Stores name z Γ l w k e d d' := by
  obtain ⟨d₁, v, d₂, h₁, h₂, rfl⟩ := Lowering.storeIn_eq_ok h
  obtain ⟨made, hp⟩ := hprepare hd ho h₁
  have hev := Evaluates.ofExpr (x := x) (Γ := Γ) (w := w) hx.boolean hx.realizes he hp.logical
    hp.carries.opened h₂
  have hkeeps : d₁.Extends [] (d₂.emit (.setVariable (tempName k) (v.coerce .boolean)) v.cost) :=
    hev.keeps.trans (.emit d₂ _ _)
  have howed : d.owed I l.program.tree w e = made := by
    rw [hp.owed, Draft.owed_of_not_pending hev.settled, add_zero]
  refine ⟨hp.keeps.trans (hkeeps.mono (List.nil_subset _)), hp.logical.kept hkeeps, ?_⟩
  have hfirst : x.Carries name z Γ (Γ.Declares (tempName k) .boolean) d d₁ True
      (fun m ↦ m.Rests I l.program ∧ d.Informed I l w m.values e) _ :=
    hp.carries.conseq (fun _ ↦ trivial) (fun _ h ↦ h) (fun _ h ↦ h) fun m m' _ h ↦ h
  have hall := hfirst.seq (hev.store hx.realizes (hk.trans hp.keeps.temporaries)) (fun h _ ↦ h)
    (fun _ _ h ↦ h) fun m m₁ _ hpost ↦ hpost.2
  refine hall.conseq (fun h ↦ h) (fun _ h ↦ h) (fun _ h ↦ h) ?_
  rintro m m' - ⟨m₁, ⟨hperforms, -⟩, hcomputes, hvalue⟩
  have hdone := (hperforms.mono hk).trans (Nat.le_refl k) (.ofComputes hperforms.rests hcomputes)
  rw [add_zero, ← howed] at hdone
  exact ⟨hdone, hvalue⟩

theorem Replaces.ofStored {g : Expr} (hkeeps : d.Extends g.ids d') (hd : d'.Logical l)
    (hlt : d.temporaries < d'.temporaries)
    (h : x.Carries name z Γ True d d' (Γ.Declares (tempName d.temporaries) .boolean)
      (fun m ↦ m.Rests I l.program ∧ d.Informed I l w m.values g)
      fun m m' ↦ m.Performs I l.program d.temporaries (d.owed I l.program.tree w g) m' ∧
        m'.values (tempName d.temporaries) = I.bool (g.truth I l.program.tree w)) :
    x.Replaces name z Γ l w g d (.ofVariable (tempName d.temporaries) .boolean)
      (d'.setResult g.id (some (.ofVariable (tempName d.temporaries) .boolean))) := by
  refine ⟨hkeeps.trans (.setResult d' g.id_mem_ids _), hd.setResult g.id rfl, ?_, ?_⟩
  · exact (Draft.result?_setResult _ _ _ _).trans (if_pos rfl)
  have hset : x.Carries name z Γ _ d' (d'.setResult g.id _) _ _ _ := Carries.setResult h.opened g.id
    (some (.ofVariable (tempName d.temporaries) .boolean))
  refine (h.seq hset (fun _ hd u hu ↦ Option.some.inj hu ▸ .variable hd) (fun _ _ h ↦ h)
    fun _ _ _ _ ↦ trivial).conseq (fun h ↦ h) (fun _ h ↦ h) (fun _ h ↦ h) ?_
  rintro m m' - ⟨_, ⟨hperforms, hvalue⟩, rfl⟩
  exact ⟨hperforms, .temporary hlt hvalue⟩

theorem Stores.optional (hM : M.Realizes name z.code) {e : Expr} {k : Nat} {d₁ : Draft}
    {label : String} (join : String) (ho : d.isClosed = false)
    (h : x.Stores name z Γ l w k e ((d.addState label).enter d.nextState) d₁)
    {T : Transition DraftTarget} (hinto : T.Into {d.nextState, d₁.nextState}) {a c : Bool}
    (hnext : ∀ m : Memory V, m.values (tempName k) = I.bool a → ∀ inputs,
      T.next (fun e ↦ I.truth (e.eval I inputs m.values)) (.state d.current) =
        if c then .state d.nextState else .state d₁.nextState) :
    x.Carries name z Γ (Γ.Declares (tempName k) .boolean ∧ T.Typed Γ) d
      (d₁.join join d.current T [d₁.current]) True
      (fun m ↦ m.values (tempName k) = I.bool a ∧ m.Rests I l.program ∧
        d.Informed I l w m.values e)
      fun m m' ↦
        m.Performs I l.program k (if c then d.owed I l.program.tree w e else 0) m' ∧
          m'.values (tempName k) = I.bool (if c then e.truth I l.program.tree w else a) := by
  have hfork : d.Extends [] ((d.addState label).enter d.nextState) := .fork d label
  let starts (m : Memory V) : Prop :=
    m.values (tempName k) = I.bool a ∧ m.Rests I l.program ∧ d.Informed I l w m.values e
  have hone : x.Carries name z Γ (Γ.Declares (tempName k) .boolean ∧ T.Typed Γ) _ _ _ _ _ :=
    h.carries.conseq And.left (fun _ h ↦ h) (fun _ h ↦ h) fun _ _ _ h ↦ h
  have hpre (m : Memory V) (hm : starts m) (_ : c = true) : m.Rests I l.program ∧
      ((d.addState label).enter d.nextState).Informed I l w m.values e :=
    ⟨hm.2.1, hm.2.2.keep hfork (List.disjoint_nil_right _) (.refl _ _)⟩
  have hboth := Carries.ifThen (T := T) hM join ho hone And.right hinto
    (fun m (hm : starts m) ↦ hnext m hm.1) hpre
  refine hboth.conseq (fun h ↦ h) (fun _ h ↦ h) (fun _ h ↦ h) fun m m' hm hpost ↦ ?_
  cases c with
  | true =>
    rw [if_pos rfl] at hpost
    rwa [if_pos rfl, if_pos rfl, ← Draft.owed_congr fun i _ ↦ hfork.results i List.not_mem_nil]
  | false =>
    obtain rfl : m' = m := hpost
    exact ⟨.ofComputes hm.2.1 (.refl k m'), hm.1⟩

theorem Stores.either (hM : M.Realizes name z.code) {a b : Expr} {k : Nat} {d₁ d₂ : Draft}
    {label label' : String} (join : String) (ho : d.isClosed = false)
    (ha : x.Stores name z Γ l w k a ((d.addState label).enter d.nextState) d₁)
    (hb : x.Stores name z Γ l w k b ((d₁.addState label').enter d₁.nextState) d₂)
    (hapart : b.ids.Disjoint a.ids) {T : Transition DraftTarget}
    (hinto : T.Into {d.nextState, d₁.nextState}) {c : Bool} {pre : Memory V → Prop}
    (hnext : ∀ m, pre m → ∀ inputs,
      T.next (fun e ↦ I.truth (e.eval I inputs m.values)) (.state d.current) =
        if c then .state d.nextState else .state d₁.nextState) :
    x.Carries name z Γ (Γ.Declares (tempName k) .boolean ∧ T.Typed Γ) d
      (d₂.join join d.current T [d₁.current, d₂.current]) True
      (fun m ↦ pre m ∧ m.Rests I l.program ∧ d.Informed I l w m.values a ∧
        d.Informed I l w m.values b)
      fun m m' ↦
        m.Performs I l.program k (d.owed I l.program.tree w (if c then a else b)) m' ∧
          m'.values (tempName k) = I.bool ((if c then a else b).truth I l.program.tree w) := by
  have hfork : d.Extends [] ((d.addState label).enter d.nextState) := .fork d label
  have hforks : d.Extends a.ids ((d₁.addState label').enter d₁.nextState) :=
    ((hfork.mono (List.nil_subset _)).trans ha.keeps).trans (.fork d₁ label')
  let starts (m : Memory V) : Prop := pre m ∧ m.Rests I l.program ∧ d.Informed I l w m.values a ∧
    d.Informed I l w m.values b
  have hfirst : x.Carries name z Γ (Γ.Declares (tempName k) .boolean ∧ T.Typed Γ) _ _ _ _ _ :=
    ha.carries.conseq And.left (fun _ h ↦ h) (fun _ h ↦ h) fun _ _ _ h ↦ h
  have hsecond : x.Carries name z Γ (Γ.Declares (tempName k) .boolean ∧ T.Typed Γ) _ _ _ _ _ :=
    hb.carries.conseq And.left (fun _ h ↦ h) (fun _ h ↦ h) fun _ _ _ h ↦ h
  have hpre (m : Memory V) (hm : starts m) :
      if c then
        m.Rests I l.program ∧ ((d.addState label).enter d.nextState).Informed I l w m.values a
      else
        m.Rests I l.program ∧ ((d₁.addState label').enter d₁.nextState).Informed I l w m.values b := by
    -- What the first part records does not touch the second one, which is made after it.
    obtain ⟨-, hrests, hma, hmb⟩ := hm
    cases c with
    | true => exact ⟨hrests, hma.keep hfork (List.disjoint_nil_right _) (.refl _ _)⟩
    | false => exact ⟨hrests, hmb.keep hforks hapart (.refl _ _)⟩
  have hboth := Carries.ifElse (T := T) hM join ho hfirst hsecond And.right hinto
    (fun m (hm : starts m) ↦ hnext m hm.1) hpre
  refine hboth.conseq (fun h ↦ h) (fun _ h ↦ h) (fun _ h ↦ h) fun m m' _ hpost ↦ ?_
  cases c with
  | true =>
    rw [if_pos rfl] at hpost ⊢
    rwa [← Draft.owed_congr fun i _ ↦ hfork.results i List.not_mem_nil]
  | false =>
    rw [if_neg Bool.false_ne_true] at hpost ⊢
    rwa [← Draft.owed_congr fun i hi ↦ hforks.results i (hapart hi)]

/-- The second operand of a short-circuit operator is evaluated if the first one does not decide. -/
theorem exists_replaces_binary (hx : x.Hosts name z Γ l w) {id : NodeId} {op : BinaryOp}
    {lhs rhs : Expr} (hg : (Expr.binary id op lhs rhs).isGuarded)
    (he : (Expr.binary id op lhs rhs).IsLogic l)
    (hev : d.isEvaluated (.binary id op lhs rhs) = false) (hlhs : d.isPending lhs = false)
    (hprepare : x.Readies name z Γ l w prepare rhs) (hd : d.Logical l) (ho : d.isClosed = false)
    (h : l.guarded prepare (.binary id op lhs rhs) d = .ok d') :
    ∃ v, x.Replaces name z Γ l w (.binary id op lhs rhs) d v d' := by
  let g : Expr := .binary id op lhs rhs
  have hl : lhs ∈ g.children := by simp [g, Expr.children]
  have hr : rhs ∈ g.children := by simp [g, Expr.children]
  obtain ⟨hop, -⟩ : op.isLogical = true ∧ rhs.containsCall = true := by
    simpa [Expr.isGuarded] using hg
  cases Lowering.guarded_eq_ok h with | @binary _ _ _ _ left d₁ _ d₂ hleft hd₀ hright =>
  subst hd₀
  let k := d.temporaries
  let t := d.temporary .boolean "short-circuit value"
  let d₀ := d₁.emit (.setVariable (tempName k) (left.coerce .boolean)) left.cost
  have htemp : d.Extends [] t.2 := .temporary d .boolean _
  have heval := Evaluates.ofExpr (x := x) (Γ := Γ) (w := w) hx.boolean hx.realizes (he.child hl)
    (hd.kept htemp) (ho : t.2.isClosed = false) hleft
  have hinner : t.2.Extends [] d₀ := heval.keeps.trans (.emit d₁ _ _)
  have hkeeps : d.Extends [] d₀ := htemp.trans hinner
  have hready := heval.stored ho hx.realizes
  have hfork := hkeeps.trans (.fork d₀ "evaluate right operand")
  have hstores : x.Stores name z Γ l w k rhs ((d₀.addState _).enter d₀.nextState) d₂ :=
    Stores.ofStoreIn hx (he.child hr) hprepare (hd.kept hfork) rfl hfork.temporaries hright
  -- The value that is stored first is at once the condition and the result if the operand decides.
  let a := lhs.truth I l.program.tree w
  let targets := op.branches d₀.nextState d₂.nextState
  let T : Transition DraftTarget :=
    .branch (.variable (tempName k)) (.state targets.1) (.state targets.2)
  have hinto : T.Into {d₀.nextState, d₂.nextState} := by
    simp only [T, targets, BinaryOp.branches]
    refine Transition.into_branch ?_ ?_ <;> split <;> simp
  have hnext (m : Memory V) (hm : m.values (tempName k) = I.bool a) (inputs : SignalRef → V) :
      T.next (fun c ↦ I.truth (c.eval I inputs m.values)) (.state d₀.current) =
        if !op.settles a then .state d₀.nextState else .state d₂.nextState := by
    simp only [T, Transition.next, HwExpr.eval, hm, hx.boolean.truth]
    rw [← apply_ite, ← apply_ite, BinaryOp.branch_settles hop]
  have hbranch := Stores.optional hx.realizes "short-circuit join" hready.opened hstores
    (T := T) hinto hnext
  let d₃ := d₂.join "short-circuit join" d₀.current T [d₂.current]
  have hd₃ : d₃.Logical l := hstores.logical.kept (.join d₂ _ _ _ _)
  have hinner₃ : t.2.Extends g.ids d₃ :=
    ((hinner.trans (.fork d₀ _)).mono (List.nil_subset _)).trans
      ((hstores.keeps.mono (Expr.ids_subset_child hr)).trans (.join d₂ _ _ _ _))
  have hlt : k < d₃.temporaries := (Nat.lt_succ_self k).trans_le hinner₃.temporaries
  have howed : d₀.owed I l.program.tree w rhs = d.owed I l.program.tree w rhs :=
    Draft.owed_congr fun i _ ↦ hkeeps.results i List.not_mem_nil
  refine ⟨_, Replaces.ofStored (g := g) ((htemp.mono (List.nil_subset _)).trans hinner₃) hd₃ hlt ?_⟩
  have hfirst : x.Carries name z Γ True d d₀ (Γ.Declares (tempName k) .boolean)
      (fun m ↦ m.Rests I l.program ∧ d.Informed I l w m.values g) _ :=
    hready.conseq (fun h ↦ h) (fun _ h ↦ h) (fun _ hm ↦ ⟨hm.1, hm.2.child hev hl⟩) fun _ _ _ h ↦ h
  refine (hfirst.seq hbranch (fun _ hd ↦ ⟨hd, HwExpr.HasType.variable hd⟩) (fun _ hd _ ↦ hd)
    fun m m₁ hm hpost ↦ ⟨hpost.2, hm.1.congr hpost.1.driven,
      (hm.2.child hev hr).keep hkeeps (List.disjoint_nil_right _) hpost.1.values⟩).conseq
    (fun h ↦ h) (fun _ h ↦ h) (fun _ h ↦ h) ?_
  rintro m m' ⟨hrests, -⟩ ⟨m₁, ⟨hcomputes, -⟩, hperforms, hvalue⟩
  have hdone := (Memory.Performs.ofComputes hrests hcomputes).trans (Nat.le_refl k) hperforms
  rw [zero_add, howed, ← Draft.owed_shortCircuit hg hev hlhs] at hdone
  rw [Expr.truth_shortCircuit hop]
  exact ⟨hdone, hvalue⟩

theorem exists_replaces_conditional (hx : x.Hosts name z Γ l w) {id : NodeId}
    {condition ifTrue ifFalse : Expr}
    (hg : (Expr.conditional id condition ifTrue ifFalse).isGuarded)
    (hids : (Expr.conditional id condition ifTrue ifFalse).ids.Nodup)
    (he : (Expr.conditional id condition ifTrue ifFalse).IsLogic l)
    (hev : d.isEvaluated (.conditional id condition ifTrue ifFalse) = false)
    (hcondition : d.isPending condition = false) (htrue : x.Readies name z Γ l w prepare ifTrue)
    (hfalse : x.Readies name z Γ l w prepare ifFalse) (hd : d.Logical l) (ho : d.isClosed = false)
    (h : l.guarded prepare (.conditional id condition ifTrue ifFalse) d = .ok d') :
    ∃ v, x.Replaces name z Γ l w (.conditional id condition ifTrue ifFalse) d v d' := by
  let g : Expr := .conditional id condition ifTrue ifFalse
  have hc : condition ∈ g.children := by simp [g, Expr.children]
  have ha : ifTrue ∈ g.children := by simp [g, Expr.children]
  have hb : ifFalse ∈ g.children := by simp [g, Expr.children]
  have hchildren : [condition] ++ ifTrue :: [ifFalse] <+ g.children := List.Sublist.refl _
  have hapart : ifFalse.ids.Disjoint ifTrue.ids := Expr.disjoint_children hids hchildren (by simp)
  cases Lowering.guarded_eq_ok h with | @conditional _ _ _ _ type v d₁ d₂ d₃ htype hv h₂ h₃ =>
  obtain rfl := Lowering.infer_logic he hd htype
  let k := d.temporaries
  let t := d.temporary .boolean "conditional value"
  let d₀ := d₁.reserve v.cost
  have htemp : d.Extends [] t.2 := .temporary d .boolean _
  have heval := Evaluates.ofExpr (x := x) (Γ := Γ) (w := w) hx.boolean hx.realizes (he.child hc)
    (hd.kept htemp) (ho : t.2.isClosed = false) hv
  have hinner : t.2.Extends [] d₀ := heval.keeps.trans (.reserve d₁ _)
  have hkeeps : d.Extends [] d₀ := htemp.trans hinner
  have hready := heval.reserved ho hx.realizes
  have hfork₁ := hkeeps.trans (.fork d₀ "conditional: true")
  have hstores₁ : x.Stores name z Γ l w k ifTrue ((d₀.addState _).enter d₀.nextState) d₂ :=
    Stores.ofStoreIn hx (he.child ha) htrue (hd.kept hfork₁) rfl hfork₁.temporaries h₂
  have hfork₂ : d₀.Extends ifTrue.ids ((d₂.addState "conditional: false").enter d₂.nextState) :=
    ((Draft.Extends.fork d₀ _).trans hstores₁.keeps).trans (.fork d₂ _)
  have hstores₂ : x.Stores name z Γ l w k ifFalse ((d₂.addState _).enter d₂.nextState) d₃ :=
    Stores.ofStoreIn hx (he.child hb) hfalse (hstores₁.logical.kept (.fork d₂ _)) rfl
      (hkeeps.temporaries.trans hfork₂.temporaries) h₃
  let b := condition.truth I l.program.tree w
  let T : Transition DraftTarget :=
    .branch (v.coerce .boolean) (.state d₀.nextState) (.state d₂.nextState)
  have hnext (m : Memory V) (hm : v.expr.Yields I d₀.temporaries m.values b)
      (inputs : SignalRef → V) :
      T.next (fun c ↦ I.truth (c.eval I inputs m.values)) (.state d₀.current) =
        if b then .state d₀.nextState else .state d₂.nextState := by
    have htruth : I.truth ((v.coerce .boolean).eval I inputs m.values) = b := by
      rw [Lowered.coerce_self heval.type, hm.eval, hx.boolean.truth]
    simp only [T, Transition.next, htruth]
  have hinto : T.Into {d₀.nextState, d₂.nextState} := Transition.into_branch (by simp) (by simp)
  have hbranch := Stores.either hx.realizes "conditional: join" hready.opened hstores₁ hstores₂
    hapart (T := T) hinto hnext
  let d₄ := d₃.join "conditional: join" d₀.current T [d₂.current, d₃.current]
  have hd₄ : d₄.Logical l := hstores₂.logical.kept (.join d₃ _ _ _ _)
  have hinner₄ : t.2.Extends g.ids d₄ :=
    (hinner.mono (List.nil_subset _)).trans ((hfork₂.mono (Expr.ids_subset_child ha)).trans
      ((hstores₂.keeps.mono (Expr.ids_subset_child hb)).trans (.join d₃ _ _ _ _)))
  have hlt : k < d₄.temporaries := (Nat.lt_succ_self k).trans_le hinner₄.temporaries
  have howed : d₀.owed I l.program.tree w (if b then ifTrue else ifFalse) =
      d.owed I l.program.tree w (if b then ifTrue else ifFalse) :=
    Draft.owed_congr fun i _ ↦ hkeeps.results i List.not_mem_nil
  refine ⟨_, Replaces.ofStored (g := g) ((htemp.mono (List.nil_subset _)).trans hinner₄) hd₄ hlt ?_⟩
  have hfirst : x.Carries name z Γ True d d₀ (Γ.Declares (tempName k) .boolean ∧ v.Typed Γ)
      (fun m ↦ m.Rests I l.program ∧ d.Informed I l w m.values g) _ :=
    hready.conseq (fun h ↦ h) (fun _ h ↦ h) (fun _ hm ↦ ⟨hm.1, hm.2.child hev hc⟩) fun _ _ _ h ↦ h
  refine (hfirst.seq hbranch (fun _ h ↦ ⟨h.1, h.2.coerce .boolean⟩) (fun _ h _ ↦ h.1)
    fun m m₁ hm hpost ↦ ⟨hpost.2, hm.1.congr hpost.1.driven,
      (hm.2.child hev ha).keep hkeeps (List.disjoint_nil_right _) hpost.1.values,
      (hm.2.child hev hb).keep hkeeps (List.disjoint_nil_right _) hpost.1.values⟩).conseq
    (fun h ↦ h) (fun _ h ↦ h) (fun _ h ↦ h) ?_
  rintro m m' ⟨hrests, -⟩ ⟨m₁, ⟨hcomputes, -⟩, hperforms, hvalue⟩
  have hdone := (Memory.Performs.ofComputes hrests hcomputes).trans (Nat.le_refl k) hperforms
  rw [zero_add, howed, ← Draft.owed_choice hg hev hcondition] at hdone
  rw [Expr.truth_choice]
  exact ⟨hdone, hvalue⟩

theorem exists_replaces_guarded (hx : x.Hosts name z Γ l w) {g : Expr} (hg : g.isGuarded)
    (hids : g.ids.Nodup) (he : g.IsLogic l) (hev : d.isEvaluated g = false)
    (hdecider : ∀ c ∈ g.children.head?, d.isPending c = false)
    (hprepare : ∀ c ∈ g.children, x.Readies name z Γ l w prepare c) (hd : d.Logical l)
    (ho : d.isClosed = false) (h : l.guarded prepare g d = .ok d') :
    ∃ v, x.Replaces name z Γ l w g d v d' := by
  cases g with
  | binary id op lhs rhs =>
    exact exists_replaces_binary hx hg he hev (hdecider lhs rfl)
      (hprepare rhs (by simp [Expr.children])) hd ho h
  | conditional id condition ifTrue ifFalse =>
    exact exists_replaces_conditional hx hg hids he hev (hdecider condition rfl)
      (hprepare ifTrue (by simp [Expr.children])) (hprepare ifFalse (by simp [Expr.children])) hd
      ho h
  | _ => cases hg

theorem readies_prepareUpTo (hx : x.Hosts name z Γ l w) {expand : Expansion}
    (hexpand : expand.Sound Γ) (rounds : Nat) {e : Expr} (hids : e.ids.Nodup) (he : e.IsLogic l)
    (hgroup : e.Grouped l.program) :
    x.Readies name z Γ l w (l.prepareUpTo expand rounds) e := by
  -- The rounds bound the depth too: operands of a guarded expression are prepared in fewer rounds.
  induction rounds generalizing e with
  | zero =>
    intro d d' hd ho h
    obtain rfl := Except.ok.inj h
    exact ⟨0, .refl hd ho⟩
  | succ rounds ih =>
    intro d d' hd ho h
    have hapt := d.apt_ready e
    have htimely : (d.ready e).Timely I l.program.tree w d e := Draft.timely_ready hids
    obtain ⟨-, rfl⟩ | ⟨g, d₁, hready, hguarded, h⟩ | ⟨d₁, hne, hcalls, h⟩ := Lowering.prepareUpTo_eq_ok h
    · exact ⟨0, .refl hd ho⟩
    · rw [hready] at hapt htimely
      obtain ⟨hmem, hg, hev, hdecider⟩ := hapt.guarded g rfl
      have hidsg : g.ids.Nodup := ((Expr.nodes_sublist hmem).map Expr.id).nodup hids
      obtain ⟨v, hreplaces⟩ := exists_replaces_guarded hx hg hidsg (he.mono hmem) hev hdecider
        (fun c hc ↦ ih (Expr.ids_nodup_child hidsg hc) ((he.mono hmem).child hc)
          (hgroup.mono (List.Subset.trans (Expr.nodes_subset_of_mem_children hc)
            (Expr.nodes_subset hmem)))) hd ho hguarded
      have hone := Prepares.ofReplaces hids (htimely.guarded g rfl) hreplaces
      obtain ⟨made, hrest⟩ := ih hids he hgroup hone.logical hone.carries.opened h
      exact ⟨_, hone.trans hrest⟩
    · obtain ⟨group, hgroup'⟩ := hgroup
      have hcallable : d.Callable I l.program.tree w e (d.ready e).calls :=
        ⟨htimely.calls, htimely.apart, fun c hc ↦ (hapt.calls c hc).2.2⟩
      have hone := Prepares.ofInvoke hx hexpand hids he hd ho hne hcallable
        ⟨group, fun c hc ↦ hgroup' c (hapt.sub.subset hc) (hapt.calls c hc).1⟩ hcalls
      obtain ⟨made, hrest⟩ := ih hids he ⟨group, hgroup'⟩ hone.logical hone.carries.opened h
      exact ⟨_, hone.trans hrest⟩

end Execution

end Fabric
