import Fabric.Proofs.Source.Evaluation
import Fabric.Proofs.Source.Exchange

namespace Fabric

variable {V ι : Type} {I : Interpretation V} {M : Machine ι}

def YieldAll (I : Interpretation V) (n : Nat) (values : String → V) (entries : List (String × Bool))
    (es : List (String × HwExpr)) : Prop :=
  List.Forall₂ (fun b a ↦ a.1 = b.1 ∧ a.2.Yields I n values b.2) entries es

namespace YieldAll

variable {n n' : Nat} {values values' : String → V} {entries : List (String × Bool)}
  {es : List (String × HwExpr)}

theorem mono (h : YieldAll I n values entries es) (hle : n ≤ n')
    (hagree : AgreeBelow n values values') : YieldAll I n' values' entries es :=
  h.imp fun _ _ ha ↦ ⟨ha.1, ha.2.mono hle hagree⟩

theorem eval (h : YieldAll I n values entries es) (inputs : SignalRef → V)
    (hagree : AgreeBelow n values values') :
    (es.map fun a ↦ (a.1, a.2.eval I inputs values')) = entries.map fun b ↦ (b.1, I.bool b.2) :=
  map_eq_of_forall₂ (h.imp fun _ _ ha ↦ Prod.ext ha.1 (ha.2 inputs values' hagree))

theorem names (h : YieldAll I n values entries es) : es.map Prod.fst = entries.map Prod.fst :=
  map_eq_of_forall₂ (h.imp fun _ _ ha ↦ ha.1)

end YieldAll

namespace Draft

def settleArgument (callee : String) (a : Argument) (d : Draft) : HwExpr × Draft :=
  if a.value.cost > 0 then
    (.variable (tempName d.temporaries),
      (d.temporary a.type ("argument " ++ a.name ++ " of " ++ callee)).2.emit
        (.setVariable (tempName d.temporaries) (a.value.coerce a.type)) a.value.cost)
  else (a.value.coerce a.type, d)

theorem settleArguments_eq (callee : String) (a : Argument) (rest : List Argument) (d : Draft) :
    settleArguments callee (a :: rest) d =
      ((a.name, (settleArgument callee a d).1) ::
          (settleArguments callee rest (settleArgument callee a d).2).1,
        (settleArguments callee rest (settleArgument callee a d).2).2) := by
  simp only [settleArguments, settleArgument]
  split <;> rfl

theorem Extends.settleArgument (callee : String) (a : Argument) (d : Draft) :
    d.Extends [] (d.settleArgument callee a).2 := by
  unfold Draft.settleArgument
  split
  · exact (Extends.temporary d a.type _).trans (.emit _ _ _)
  · exact .refl [] d

theorem Extends.settleArguments (callee : String) (arguments : List Argument)
    (d : Draft) : d.Extends [] (Draft.settleArguments callee arguments d).2 := by
  induction arguments generalizing d with
  | nil => exact .refl [] d
  | cons a rest ih =>
    rw [settleArguments_eq]
    exact (Extends.settleArgument callee a d).trans (ih _)

end Draft

namespace Execution

variable {x : Execution I M} {name : DraftTarget → ι} {z : Draft} {Γ : Interface} {l : Lowering}
  {w : World V} {d d₁ d' : Draft}

namespace Carries

theorem ofReaches {P Q Q' : Prop} {pre : Memory V → Prop} {post : Memory V → Memory V → Prop}
    (h : x.Carries name z Γ P d d' Q pre post) (hr : d.Reaches Γ P d' Q') :
    x.Carries name z Γ P d d' Q' pre post :=
  ⟨hr, h.follows⟩

variable (hM : M.Realizes name z.code)

include hM

theorem settleArgument (ho : d.isClosed = false) (callee : String) {a : Argument}
    (ht : a.type = .boolean ∧ a.value.type = .boolean) (b : Bool) :
    x.Carries name z Γ (a.value.Typed Γ) d (d.settleArgument callee a).2 True
      (fun m ↦ a.value.expr.Yields I d.temporaries m.values b)
      fun m m' ↦ m.Computes d.temporaries m' ∧ (d.settleArgument callee a).1.Yields I
        (d.settleArgument callee a).2.temporaries m'.values b := by
  unfold Draft.settleArgument
  rw [Lowered.coerce_self (ht.2.trans ht.1.symm)]
  split
  · have htemp : x.Carries name z Γ (a.value.Typed Γ) d _ _ _ _ :=
      Carries.temporary ho a.type ("argument " ++ a.name ++ " of " ++ callee)
    have hboth := htemp.seq (Carries.emit hM htemp.opened
      (s := .setVariable (tempName d.temporaries) a.value.expr)
      (HwStmt.isPlain_setVariable _ _) a.value.cost)
      (fun hv hd ↦ HwStmt.typed_setVariable hd (Lowered.coerce_self (ht.2.trans ht.1.symm) ▸
        hv.coerce a.type)) (fun _ _ _ ↦ trivial) fun _ _ _ _ ↦ trivial
    refine hboth.conseq (fun h ↦ h) (fun _ h ↦ h) (fun _ _ ↦ trivial) ?_
    rintro m m' hm ⟨m₁, rfl, inputs, rfl⟩
    have hexec : HwStmt.exec I inputs (.setVariable (tempName d.temporaries) a.value.expr) m₁ =
        m₁.setVariable (tempName d.temporaries) (I.bool b) := by
      rw [HwStmt.setVariable, HwStmt.exec, hm.eval]
    rw [hexec]
    refine ⟨.set m₁ le_rfl _, .temporary ?_ (if_pos rfl)⟩
    rw [Draft.temporaries_emit]
    exact Nat.lt_succ_self _
  · refine (Carries.refl ho fun _ ↦ trivial).conseq (fun h ↦ h) (fun _ h ↦ h) (fun _ _ ↦ trivial) ?_
    rintro m m' hm rfl
    exact ⟨.refl _ m', hm⟩

theorem settleArguments (ho : d.isClosed = false) (callee : String) {arguments : List Argument}
    (ht : ∀ a ∈ arguments, a.type = .boolean ∧ a.value.type = .boolean)
    (entries : List (String × Bool)) :
    x.Carries name z Γ (∀ a ∈ arguments, a.value.Typed Γ) d
      (Draft.settleArguments callee arguments d).2 True
      (fun m ↦ YieldAll I d.temporaries m.values entries
        (arguments.map fun a ↦ (a.name, a.value.expr)))
      fun m m' ↦ m.Computes d.temporaries m' ∧
        YieldAll I (Draft.settleArguments callee arguments d).2.temporaries m'.values entries
          (Draft.settleArguments callee arguments d).1 := by
  induction arguments generalizing d entries with
  | nil =>
    refine (Carries.refl ho fun _ ↦ trivial).conseq (fun h ↦ h) (fun _ h ↦ h) (fun _ _ ↦ trivial) ?_
    rintro m m' hm rfl
    exact ⟨.refl _ m', hm⟩
  | cons a rest ih =>
    obtain ⟨hta, htrest⟩ := List.forall_mem_cons.1 ht
    cases entries with
    | nil =>
      refine ⟨(Draft.reaches_settleArguments callee (a :: rest) ho).conseq (fun h ↦ h)
        fun _ _ ↦ trivial, fun _ _ _ _ _ _ _ _ hm ↦ ?_⟩
      cases hm
    | cons b entries =>
      have hone : x.Carries name z Γ (∀ c ∈ a :: rest, c.value.Typed Γ) d _ True
          (fun m ↦ YieldAll I d.temporaries m.values (b :: entries)
            ((a :: rest).map fun a ↦ (a.name, a.value.expr))) _ :=
        (settleArgument hM ho callee hta b.2).conseq (fun h ↦ h a List.mem_cons_self)
          (fun _ h ↦ h) (fun m hm ↦ (List.forall₂_cons.1 hm).1.2) fun m m' _ h ↦ h
      have hall := hone.seq (ih hone.opened htrest entries)
        (fun h _ c hc ↦ h c (List.mem_cons_of_mem _ hc)) (fun _ _ h ↦ h) fun m m₁ hm hpost ↦
          YieldAll.mono (List.forall₂_cons.1 hm).2
            (Draft.Extends.settleArgument callee a d).temporaries hpost.1.values
      rw [Draft.settleArguments_eq]
      refine hall.conseq (fun h ↦ h) (fun _ h ↦ h) (fun _ h ↦ h) ?_
      rintro m m' hm ⟨m₁, ⟨hcomputes, hyields⟩, hcomputes', hrest⟩
      have hkeeps := Draft.Extends.settleArgument callee a d
      have hkeeps' := Draft.Extends.settleArguments callee rest
        (d.settleArgument callee a).2
      refine ⟨hcomputes.trans hkeeps.temporaries hcomputes', .cons ⟨?_, ?_⟩ hrest⟩
      · exact (List.forall₂_cons.1 hm).1.1
      · exact hyields.mono hkeeps'.temporaries hcomputes'.values

end Carries

variable (x name z Γ l w) in
structure EvaluatesAll (params : List (Parameter × Expr)) (d : Draft) (arguments : List Argument)
    (d' : Draft) : Prop where
  types : ∀ a ∈ arguments, a.type = .boolean ∧ a.value.type = .boolean
  keeps : d.Extends [] d'
  carries : x.Carries name z Γ True d d' (∀ a ∈ arguments, a.value.Typed Γ)
    (fun m ↦ ∀ p ∈ params, d.Informed I l w m.values p.2)
    fun m m' ↦ m.Computes d.temporaries m' ∧ YieldAll I d'.temporaries m'.values
      (params.map fun p ↦ (p.1.name, p.2.truth I l.program.tree w))
      (arguments.map fun a ↦ (a.name, a.value.expr))

theorem EvaluatesAll.ofEvalArguments (hI : I.IsBoolean) (hM : M.Realizes name z.code)
    {callee : String} {params : List (Parameter × Expr)} {arguments : List Argument}
    (hparams : ∀ p ∈ params, p.1.type = .bool ∧ p.2.IsLogic l) (hd : d.Logical l)
    (ho : d.isClosed = false) (h : l.evalArguments callee params d = .ok (arguments, d')) :
    x.EvaluatesAll name z Γ l w params d arguments d' := by
  induction params generalizing d arguments d' with
  | nil =>
    obtain ⟨rfl, rfl⟩ := Prod.mk.inj (Except.ok.inj h)
    refine ⟨List.forall_mem_nil _, .refl [] d, ?_⟩
    refine (Carries.refl ho fun _ ↦ List.forall_mem_nil _).conseq (fun h ↦ h) (fun _ h ↦ h)
      (fun _ _ ↦ trivial) ?_
    rintro m m' - rfl
    exact ⟨.refl _ m', .nil⟩
  | cons p rest ih =>
    obtain ⟨⟨htype, hlogic⟩, hrest⟩ := List.forall_mem_cons.1 hparams
    obtain ⟨type, v, d₁, others, ht, hv, hothers, rfl⟩ := Lowering.evalArguments_eq_ok h
    have hboolean : type = .boolean := by
      unfold Lowering.parameterType at ht
      rw [htype] at ht
      exact (Except.ok.inj ht).symm
    have hone := Evaluates.ofExpr (x := x) (Γ := Γ) (w := w) hI hM hlogic hd ho hv
    have hothers := ih hrest (hd.kept hone.keeps) hone.carries.opened hothers
    refine ⟨List.forall_mem_cons.2 ⟨⟨hboolean, hone.type⟩, hothers.types⟩,
      hone.keeps.trans hothers.keeps, ?_⟩
    have hfirst : x.Carries name z Γ True d d₁ (v.Typed Γ)
        (fun m ↦ ∀ q ∈ p :: rest, d.Informed I l w m.values q.2) _ :=
      hone.carries.conseq (fun h ↦ h) (fun _ h ↦ h) (fun m hm ↦ hm p List.mem_cons_self)
        fun m m' _ h ↦ h
    have hall := hfirst.seq hothers.carries (fun _ _ ↦ trivial)
      (S := ∀ a ∈ (⟨p.1.name, type, v⟩ :: others : List Argument), a.value.Typed Γ)
      (fun _ hv hvs ↦ List.forall_mem_cons.2 ⟨hv, hvs⟩) fun m m₁ hm hpost q hq ↦
        (hm q (List.mem_cons_of_mem _ hq)).keep hone.keeps (List.disjoint_nil_right _)
          hpost.1.values
    refine hall.conseq (fun h ↦ h) (fun _ h ↦ h) (fun _ h ↦ h) ?_
    rintro m m' - ⟨m₁, ⟨hcomputes, hyields⟩, hcomputes', hrest⟩
    refine ⟨hcomputes.trans hone.keeps.temporaries hcomputes', .cons ⟨rfl, ?_⟩ hrest⟩
    exact hyields.mono hothers.keeps.temporaries hcomputes'.values

variable (x name z Γ l w) in
structure Issues (e : Expr) (d : Draft) (c : Invocation) (d' : Draft) : Prop where
  value : c.returnType = some .boolean
  keeps : d.Extends [] d'
  carries : x.Carries name z Γ True d d' True
    (fun m ↦ ∀ a ∈ e.children, d.Informed I l w m.values a)
    fun m m' ↦ m.Computes d.temporaries m' ∧ c.Makes I l w d'.temporaries m'.values e

/-- The slot of a call is taken, its arguments are evaluated, and those that take time are put into
temporaries. -/
theorem Issues.ofInvocation (hI : I.IsBoolean) (hM : M.Realizes name z.code) {id : NodeId}
    {target : MemberRef} {args : List Expr} (he : (Expr.call id target args).IsLogic l)
    (hd : d.Logical l) (ho : d.isClosed = false) {h : MemberHandle}
    (hh : l.program.tree.resolveCall target = some h) {group : NodeId} {c : Invocation}
    (hi : l.invocation h group args d = .ok (c, d')) :
    x.Issues name z Γ l w (.call id target args) d c d' := by
  obtain ⟨k, hk, -, hreturn, hparams⟩ := he _ (Expr.mem_nodes_self _)
  obtain rfl := Option.some.inj (hh.symm.trans hk)
  obtain ⟨slot, d₁, arguments, d₂, type, hslot, harguments, htype, rfl, rfl⟩ :=
    Lowering.invocation_eq_ok hi
  have hboolean : type = some .boolean := by
    unfold Lowering.resultType at htype
    rw [hreturn] at htype
    exact (Except.ok.inj htype).symm
  have htake : x.Carries name z Γ True d d₁ True (fun _ ↦ True) fun m m' ↦ m' = m := by
    have hreaches := Lowering.reaches_takeSlot (Γ := Γ) hslot ho
    obtain ⟨-, -, rfl⟩ := Lowering.takeSlot_eq hslot
    exact .ofScope hreaches fun _ _ _ ↦ rfl
  have hkeeps₁ : d.Extends [] d₁ := by
    obtain ⟨-, -, rfl⟩ := Lowering.takeSlot_eq hslot
    exact ⟨rfl, Nat.le_refl _, fun _ _ ↦ rfl⟩
  obtain ⟨hlength, harguments⟩ := Lowering.arguments_eq_ok harguments
  have hall : ∀ p ∈ (l.program.tree.method h).parameters.zip args,
      p.1.type = .bool ∧ p.2.IsLogic l := by
    intro p hp
    obtain ⟨hp, ha⟩ := List.of_mem_zip hp
    exact ⟨hparams _ hp, he.child ha⟩
  have hevaluates := EvaluatesAll.ofEvalArguments (x := x) (Γ := Γ) (w := w) hI hM hall
    (hd.kept hkeeps₁) htake.opened harguments
  let entries := ((l.program.tree.method h).parameters.zip args).map fun p ↦
    (p.1.name, p.2.truth I l.program.tree w)
  have hsettles := Carries.settleArguments (x := x) (Γ := Γ) hM hevaluates.carries.opened
    (l.program.tree.memberFullName h) hevaluates.types entries
  have hkeeps₃ := Draft.Extends.settleArguments (l.program.tree.memberFullName h)
    arguments d₂
  refine ⟨hboolean, (hkeeps₁.trans hevaluates.keeps).trans hkeeps₃, ?_⟩
  have hfirst : x.Carries name z Γ True d d₁ True (fun m ↦ ∀ a ∈ args, d.Informed I l w m.values a)
      fun m m' ↦ m' = m :=
    htake.conseq (fun h ↦ h) (fun _ h ↦ h) (fun _ _ ↦ trivial) fun _ _ _ h ↦ h
  have hsecond := hfirst.seq hevaluates.carries (fun _ _ ↦ trivial) (fun _ _ h ↦ h) (by
    rintro m m' hm rfl p hp
    exact (hm p.2 (List.of_mem_zip hp).2).keep hkeeps₁ (List.disjoint_nil_right _) (.refl _ _))
  have hthird := hsecond.seq hsettles (fun _ h ↦ h) (fun _ _ h ↦ h) (by
    rintro m m' - ⟨_, -, -, hyields⟩
    exact hyields)
  refine hthird.conseq (fun h ↦ h) (fun _ h ↦ h) (fun _ h ↦ h) ?_
  rintro m m' - ⟨m₂, ⟨m₁, rfl, hcomputes, -⟩, hcomputes', hyields⟩
  have hle : d.temporaries ≤ d₁.temporaries := hkeeps₁.temporaries
  refine ⟨((Memory.Computes.refl _ m₁).trans hle hcomputes).trans
    (hle.trans hevaluates.keeps.temporaries) hcomputes', ?_⟩
  have hnames : entries.map Prod.fst =
      (l.program.tree.method h).parameters.map Parameter.name := by
    rw [← List.map_fst_zip hlength.le, List.map_map, List.map_map]
    rfl
  have hinvoked : l.program.tree.invoked I target (args.map (Expr.truth I l.program.tree w)) =
      (l.program.tree.memberFullName h, pinned (entries.map fun b ↦ (b.1, I.bool b.2))) := by
    rw [SyntaxTree.invoked, hh]
    dsimp only
    rw [List.map_map, List.zip_map, List.map_map]
    rfl
  refine ⟨⟨h, SyntaxTree.mem_handles_of_resolveCall hh, rfl, hyields.names.trans hnames⟩,
    entries.map fun b ↦ (b.1, I.bool b.2), fun inputs _ hagree ↦ hyields.eval inputs hagree, ?_, ?_⟩
  · rw [Expr.own, hinvoked]
  · rw [Expr.truth_call, hinvoked]

variable (x name z Γ l w) in
structure Gathers (calls : List Expr) (d : Draft) (batch : List (NodeId × Invocation)) (d' : Draft) :
    Prop where
  ids : batch.map Prod.fst = calls.map Expr.id
  values : ∀ b ∈ batch, b.2.returnType = some .boolean
  keeps : d.Extends [] d'
  carries : x.Carries name z Γ True d d' True
    (fun m ↦ ∀ e ∈ calls, ∀ a ∈ e.children, d.Informed I l w m.values a)
    fun m m' ↦ m.Computes d.temporaries m' ∧
      List.Forall₂ (fun e c ↦ c.Makes I l w d'.temporaries m'.values e) calls (batch.map Prod.snd)

theorem Gathers.nil (ho : d.isClosed = false) : x.Gathers name z Γ l w [] d [] d := by
  refine ⟨rfl, List.forall_mem_nil _, .refl [] d, ?_⟩
  refine (Carries.refl ho fun h ↦ h).conseq (fun h ↦ h) (fun _ h ↦ h) (fun _ _ ↦ trivial) ?_
  rintro m m' - rfl
  exact ⟨.refl _ m', .nil⟩

theorem Gathers.cons {e : Expr} {calls : List Expr} {c : Invocation}
    {batch : List (NodeId × Invocation)} (h : x.Issues name z Γ l w e d c d₁)
    (h' : x.Gathers name z Γ l w calls d₁ batch d') :
    x.Gathers name z Γ l w (e :: calls) d ((e.id, c) :: batch) d' := by
  refine ⟨congrArg (e.id :: ·) h'.ids, List.forall_mem_cons.2 ⟨h.value, h'.values⟩,
    h.keeps.trans h'.keeps, ?_⟩
  have hfirst : x.Carries name z Γ True d d₁ True
      (fun m ↦ ∀ b ∈ e :: calls, ∀ a ∈ b.children, d.Informed I l w m.values a) _ :=
    h.carries.conseq (fun h ↦ h) (fun _ h ↦ h) (fun m hm ↦ hm e List.mem_cons_self)
      fun m m' _ h ↦ h
  have hall := hfirst.seq h'.carries (fun _ h ↦ h) (fun _ _ h ↦ h) fun m m₁ hm hpost b hb a ha ↦
    (hm b (List.mem_cons_of_mem _ hb) a ha).keep h.keeps (List.disjoint_nil_right _) hpost.1.values
  refine hall.conseq (fun h ↦ h) (fun _ h ↦ h) (fun _ h ↦ h) ?_
  rintro m m' - ⟨m₁, ⟨hcomputes, hmakes⟩, hcomputes', hrest⟩
  exact ⟨hcomputes.trans h.keeps.temporaries hcomputes',
    .cons (hmakes.mono h'.keeps.temporaries hcomputes'.values) hrest⟩

/-- Calls that are not expanded in place are gathered into a batch. -/
theorem Gathers.ofGather (hI : I.IsBoolean) (hM : M.Realizes name z.code) {expand : Expansion}
    {calls : List Expr} (hlogic : ∀ e ∈ calls, e.IsLogic l) (hd : d.Logical l)
    (ho : d.isClosed = false) {batch : List (NodeId × Invocation)}
    (h : l.gather expand calls d = .ok (batch, d')) : x.Gathers name z Γ l w calls d batch d' := by
  induction calls generalizing d d' batch with
  | nil =>
    obtain ⟨rfl, rfl⟩ := Prod.mk.inj (Except.ok.inj h)
    exact .nil ho
  | cons e rest ih =>
    obtain ⟨he, hrest⟩ := List.forall_mem_cons.1 hlogic
    obtain ⟨k, args, hcallee, h⟩ := Lowering.gather_eq_ok h
    cases e with
    | call id target es =>
      obtain ⟨k', hk, hcallee⟩ := Synthesis.bind_eq_ok.1 hcallee
      obtain ⟨rfl, rfl⟩ := Prod.mk.inj (Except.ok.inj hcallee)
      have hk := Lowering.require_eq_ok.1 hk
      obtain ⟨k, hk', hinlined, -, -⟩ := he _ (Expr.mem_nodes_self _)
      obtain rfl := Option.some.inj (hk.symm.trans hk')
      rw [hinlined] at h
      obtain ⟨hfalse, -⟩ | ⟨-, group, c, d₁, others, -, hc, hothers, rfl⟩ := h
      · cases hfalse
      · have hissues := Issues.ofInvocation (x := x) (Γ := Γ) (w := w) hI hM he hd ho hk hc
        exact .cons hissues (ih hrest (hd.kept hissues.keeps) hissues.carries.opened hothers)
    | _ => cases hcallee

end Execution

end Fabric
