import Fabric.Proofs.Construction.Carry
import Fabric.Proofs.Source.Outcome

namespace Fabric

def Expr.callIds (e : Expr) : List NodeId := (e.nodes.filter isCall).map id

theorem Expr.callIds_simple {e : Expr} (he : e.IsSimple) : e.callIds = [] := by
  refine List.map_eq_nil_iff.2 (List.filter_eq_nil_iff.2 fun n hn hcall ↦ ?_)
  have hsimple := he n hn
  cases n with
  | call => exact hsimple.elim
  | _ => exact nomatch hcall

namespace Stmt

def callIds (s : Stmt) : List NodeId := s.nodes.flatMap fun t ↦ t.exprs.flatMap Expr.callIds

theorem callIds_eq (s : Stmt) :
    s.callIds = s.exprs.flatMap Expr.callIds ++ s.children.flatMap callIds := by
  unfold callIds
  rw [s.nodes_eq, List.flatMap_cons, List.flatMap_assoc]

theorem callIds_expr {s : Stmt} {e : Expr} (he : e ∈ s.exprs) : e.callIds ⊆ s.callIds := by
  intro id hid
  rw [s.callIds_eq]
  exact List.mem_append_left _ (List.mem_flatMap.2 ⟨e, he, hid⟩)

theorem callIds_child {s c : Stmt} (hc : c ∈ s.children) : c.callIds ⊆ s.callIds := by
  intro id hid
  rw [s.callIds_eq]
  exact List.mem_append_right _ (List.mem_flatMap.2 ⟨c, hc, hid⟩)

end Stmt

namespace Draft

def declareLocal (d : Draft) (name : String) (type : HwType) (comment : String) : Draft :=
  (d.declare name type comment).2.bind name (.variable (d.declare name type comment).1 type)

def Lacks (d : Draft) (ids : List NodeId) : Prop := ∀ id ∈ ids, d.result? id = none

theorem Lacks.mono {d : Draft} {ids ids' : List NodeId} (h : d.Lacks ids) (hsub : ids' ⊆ ids) :
    d.Lacks ids' :=
  fun id hid ↦ h id (hsub hid)

structure Proceeds (S : MemberPlace) (ids : List NodeId) (d d' : Draft) : Prop where
  plain : d'.Plain S
  results : ∀ id, id ∉ ids → d'.result? id = d.result? id
  declared : ∀ c ∈ d'.declarations, c ∈ d.declarations ∨ ∃ x, c.name = S.qualifier ++ x

variable {d d' d'' : Draft} {S : MemberPlace} {ids ids' : List NodeId} {name : String} {type : HwType}
  {comment : String}

namespace Proceeds

theorem of_eq (h : d.Plain S) (hr : d'.results = d.results) (hf : d'.frame = d.frame)
    (hd : d'.declarations = d.declarations) (hn : d'.expansions = d.expansions) :
    d.Proceeds S ids d' := by
  refine ⟨h.of_eq hr hf hd hn, fun id _ ↦ ?_, fun c hc ↦ .inl (hd ▸ hc)⟩
  unfold Draft.result?
  rw [hr]

theorem of_sameScope (h : d.Plain S) (hs : d.SameScope d') : d.Proceeds S ids d' :=
  .of_eq h hs.results hs.frame hs.declarations hs.expansions

theorem refl (h : d.Plain S) : d.Proceeds S ids d := .of_sameScope h .refl

theorem trans (h : d.Proceeds S ids d') (h' : d'.Proceeds S ids' d'') (hsub : ids ⊆ ids') :
    d.Proceeds S ids' d'' where
  plain := h'.plain
  results id hid := (h'.results id hid).trans (h.results id fun hmem ↦ hid (hsub hmem))
  declared c hc := (h'.declared c hc).elim (h.declared c) .inr

theorem mono (h : d.Proceeds S ids d') (hsub : ids ⊆ ids') : d.Proceeds S ids' d' :=
  h.trans (.refl h.plain) hsub

theorem lacks (h : d.Proceeds S ids d') (hl : d.Lacks ids') (hapart : ∀ id ∈ ids, id ∉ ids') :
    d'.Lacks ids' :=
  fun id hid ↦ (h.results id fun hmem ↦ hapart id hmem hid).trans (hl id hid)

theorem lacks_of_nil (h : d.Proceeds S [] d') (hl : d.Lacks ids) : d'.Lacks ids :=
  h.lacks hl fun _ hid ↦ absurd hid List.not_mem_nil

theorem leave (h : d.Plain S) : d.Proceeds S ids d.leave :=
  ⟨⟨h.known, h.qualifier, h.returnVariable, h.isExpanded, h.returnType, h.locals, h.declared,
    h.number, h.unused⟩, fun _ _ ↦ rfl, fun _ hc ↦ .inl hc⟩

end Proceeds

theorem site_declareLocal (L R : Multiset Nat) (E : Set Nat) :
    (d.declareLocal name type comment).site L R E = d.site L R E := by
  unfold declareLocal Draft.declare
  dsimp only
  split <;> rfl

theorem looseExits_declareLocal : (d.declareLocal name type comment).looseExits = d.looseExits := by
  unfold declareLocal Draft.declare
  dsimp only
  split <;> rfl

theorem declarations_declareLocal :
    d.declarations ⊆ (d.declareLocal name type comment).declarations := by
  unfold declareLocal Draft.declare
  dsimp only
  split
  · exact List.subset_append_left _ _
  · exact List.Subset.refl _

/-- A variable of a place is none of a call that is not expanded yet. -/
theorem Plain.name_ne (h : d.Plain S) (hdotless : S.Dotless) (ht : S.type? name = some type)
    {callee x : String} {k : Nat} (hk : d.expansions < k) (hx : '.' ∉ x.toList) :
    S.qualifier ++ name ≠ callPrefix callee k ++ x := by
  intro heq
  have hname := hdotless name type ht
  rcases h.number with hq | ⟨callee', k', hk', hq⟩
  · rw [hq, String.empty_append] at heq
    rw [heq, toList_callPrefix] at hname
    exact hname (by simp)
  · rw [hq] at heq
    have hnumber := callPrefix_inj hname hx heq
    omega

/-- A variable has its own name in the component, behind the qualifier. -/
theorem Plain.declare (h : d.Plain S) (ht : S.type? name = some type) (comment : String) :
    (d.declare name type comment).1 = S.qualifier ++ name ∧
      d.Proceeds S [] (d.declareLocal name type comment) := by
  have hadmits : d.admits (S.qualifier ++ name) type = true := by
    unfold admits
    split
    · rfl
    next declared hdeclared =>
      obtain ⟨c, hc, hname, rfl⟩ := declaredType?_eq_some hdeclared
      simpa using h.declared c hc name type hname ht
  have hchosen : d.firstVariant (d.frame.qualifier ++ name) type d.declarations.length 0 =
      S.qualifier ++ name := by
    rw [h.qualifier]
    cases d.declarations.length with
    | zero => rfl
    | succ n =>
      rw [firstVariant]
      exact if_pos hadmits
  have hlocals (p) (hp : p ∈ (name, Binding.variable (S.qualifier ++ name) type) :: d.frame.locals) :
      ∃ type, p.2 = .variable (S.qualifier ++ p.1) type ∧ S.type? p.1 = some type := by
    rcases List.mem_cons.1 hp with rfl | hp
    · exact ⟨type, rfl, ht⟩
    · exact h.locals p hp
  unfold declareLocal Draft.declare
  dsimp only
  rw [hchosen]
  split
  · refine ⟨rfl, ⟨h.known, h.qualifier, h.returnVariable, h.isExpanded, h.returnType, hlocals,
      fun c hc x t hname hx ↦ ?_, h.number, fun hdotless c hc callee k x hk hx ↦ ?_⟩,
      fun _ _ ↦ rfl, fun c hc ↦ ?_⟩
    · rcases List.mem_append.1 hc with hc | hc
      · exact h.declared c hc x t hname hx
      · obtain rfl := List.mem_singleton.1 hc
        obtain rfl := (String.append_right_inj _).1 hname
        exact Option.some.inj (ht.symm.trans hx)
    · rcases List.mem_append.1 hc with hc | hc
      · exact h.unused hdotless c hc callee k x hk hx
      · obtain rfl := List.mem_singleton.1 hc
        exact h.name_ne hdotless ht hk hx
    · rcases List.mem_append.1 hc with hc | hc
      · exact .inl hc
      · obtain rfl := List.mem_singleton.1 hc
        exact .inr ⟨name, rfl⟩
  · exact ⟨rfl, ⟨h.known, h.qualifier, h.returnVariable, h.isExpanded, h.returnType, hlocals,
      h.declared, h.number, h.unused⟩, fun _ _ ↦ rfl, fun _ hc ↦ .inl hc⟩

end Draft

namespace Stmt.IsSimple

variable {s c : Stmt} {e : Expr}

theorem child (h : s.IsSimple) (hc : c ∈ s.children) : c.IsSimple :=
  fun t ht ↦ h t (nodes_subset_of_mem_children hc ht)

theorem grouped (h : s.IsSimple) (p : Program) : s.Grouped p := by
  intro t ht e he c hc hcall
  have hsimple := (h t ht).1 e he c hc
  cases c with
  | call => exact hsimple.elim
  | _ => exact nomatch hcall

theorem callIds (h : s.IsSimple) : s.callIds = [] := by
  refine List.flatMap_eq_nil_iff.2 fun t ht ↦ List.flatMap_eq_nil_iff.2 fun e he ↦ ?_
  exact Expr.callIds_simple ((h t ht).1 e he)

theorem uses (h : s.IsSimple) : s.Uses Expr.IsSimple Expr.IsSimple := by
  intro t ht
  obtain ⟨hexprs, hkind⟩ := h t ht
  cases t with
  | declare => exact ⟨hkind, fun e he ↦ hexprs e (Option.mem_toList.2 he)⟩
  | assign id target value =>
    refine ⟨fun f hf ↦ ?_, hexprs value (by simp [Stmt.exprs])⟩
    subst hf
    exact hkind
  | branch id condition | whileLoop id condition => exact hexprs condition (by simp [Stmt.exprs])
  | forLoop | ret => exact fun e he ↦ hexprs e (Option.mem_toList.2 he)
  | block | breakLoop | continueLoop => exact trivial
  | store | eval | parallel => exact hkind.elim

/-- A statement without calls runs as one with calls does. -/
theorem run_eq {V : Type} (I : Interpretation V) (Γ : Scope) (limit : Nat) (h : s.IsSimple) :
    s.run I Γ limit = s.runIn I Γ (.simple I Γ) limit := by
  have hoption {o : Option Stmt} (ho : ∀ c ∈ o, c.run I Γ limit =
      c.runIn I Γ (.simple I Γ) limit) :
      runOption I Γ limit o = runInOption I Γ (.simple I Γ) limit o := by
    funext σ
    cases o with
    | none => rw [runOption, runInOption]
    | some c => rw [runOption, runInOption, ho c rfl]
  induction s using Stmt.induction with
  | declare id name type init =>
    funext σ
    cases init with
    | none => rw [run, runIn]
    | some e =>
      rw [run, runIn]
      rfl
  | assign id target value =>
    funext σ
    cases target with
    | toField f => exact ((h _ (mem_nodes_self _)).2).elim
    | _ =>
      rw [run, runIn]
      rfl
  | branch id condition thenBranch elseBranch iht ihe =>
    funext σ
    rw [run, runIn, iht (h.child (by simp [children])), hoption fun c hc ↦ ihe c hc (h.child (by
      simpa [children] using .inr hc))]
  | whileLoop id condition body ih =>
    funext σ
    rw [run, runIn, ih (h.child (by simp [children]))]
  | forLoop id init condition step body ihi ihs ihb =>
    funext σ
    rw [run, runIn, ihb (h.child (by simp [children])),
      hoption fun c hc ↦ ihi c hc (h.child (by simpa [children] using .inl hc)),
      hoption fun c hc ↦ ihs c hc (h.child (by simpa [children] using .inr (.inr hc)))]
  | ret id value =>
    funext σ
    rw [run, runIn]
    congr 1
    unfold Store.give Store.giveIn
    cases Γ.result <;> cases value <;> rfl
  | block id stmts ih =>
    funext σ
    rw [run, runIn]
    have hchild (c) (hc : c ∈ stmts) := ih c hc (h.child hc)
    clear ih h
    induction stmts generalizing σ with
    | nil => rw [runList, runInList]
    | cons c rest ihr =>
      rw [runList, runInList, hchild c List.mem_cons_self]
      congr 1
      funext σ
      exact ihr σ fun c hc ↦ hchild c (List.mem_cons_of_mem _ hc)
  | breakLoop | continueLoop =>
    funext σ
    rw [run, runIn]
  | store | eval | parallel => exact ((h _ (mem_nodes_self _)).2).elim

end Stmt.IsSimple

theorem Stmt.Uses.imp {values values' conditions conditions' : Expr → Prop} {s : Stmt}
    (h : s.Uses values conditions) (hvalues : ∀ e, values e → values' e)
    (hconditions : ∀ e, conditions e → conditions' e) : s.Uses values' conditions' := by
  intro t ht
  have hself := h t ht
  cases t with
  | declare => exact ⟨hself.1, fun e he ↦ hvalues e (hself.2 e he)⟩
  | assign | eval => exact ⟨hself.1, hvalues _ hself.2⟩
  | branch | whileLoop => exact hconditions _ hself
  | forLoop => exact fun e he ↦ hconditions e (hself e he)
  | ret => exact fun e he ↦ hvalues e (hself e he)
  | block | breakLoop | continueLoop => exact trivial
  | store | parallel => exact hself

def Scope.Types (S : Scope) (s : Stmt) : Prop :=
  ∀ p ∈ s.locals, S.type? p.1 = p.2.scalarHardware?

theorem Scope.Types.child {S : Scope} {s c : Stmt} (h : S.Types s) (hc : c ∈ s.children) :
    S.Types c := by
  intro p hp
  obtain ⟨t, ht, hp⟩ := List.mem_filterMap.1 hp
  exact h p (List.mem_filterMap.2 ⟨t, Stmt.nodes_subset_of_mem_children hc ht, hp⟩)

namespace Lowering

variable {V : Type} {I : Interpretation V} {l : Lowering} {expand : Expansion} {d d' : Draft}
  {S : MemberPlace} {e : Expr}

theorem value_simple (hd : d.Plain S) (he : e.IsSimpleBeside S.calls) {type : HwType} {v : Lowered}
    (h : l.value expand e type d = .ok (v, d')) :
    d' = d ∧ ∀ target inputs (values source : String → V), S.Sees values source →
      e.denoteAs I S.toScope target source = some ((v.coerce target).eval I inputs values) := by
  obtain ⟨_, _, _, _, _, rfl, -⟩ | ⟨-, d₁, h₁, h⟩ := value_eq_ok h
  · exact (he.simple _ (Expr.mem_nodes_self _)).elim
  · obtain rfl := Except.ok.inj ((prepare_simple expand he.simple d).symm.trans h₁)
    obtain ⟨rfl, hscalar, hdenote⟩ := expr_simple (I := I) hd he h
    refine ⟨rfl, fun target inputs values source hsees ↦ ?_⟩
    rw [Expr.denoteAs, hdenote inputs values source hsees, Option.map_some,
      Lowered.eval_coerce hscalar]

theorem condition_simple (hd : d.Plain S) (he : e.IsSimpleBeside S.calls) {c : HwExpr}
    (h : l.condition expand e d = .ok (c, d')) :
    (∃ cost, d' = d.reserve cost) ∧ ∀ inputs (values : String → V) (σ : Store V),
      S.Sees values σ.values →
        σ.holds I S.toScope e = some (I.truth (c.eval I inputs values)) := by
  obtain ⟨d₁, v, d₂, h₁, hv, rfl, rfl⟩ := condition_eq_ok h
  obtain rfl := Except.ok.inj ((prepare_simple expand he.simple d).symm.trans h₁)
  obtain ⟨rfl, hscalar, hdenote⟩ := expr_simple (I := I) hd he hv
  refine ⟨⟨_, rfl⟩, fun inputs values σ hsees ↦ ?_⟩
  rw [Store.holds, Expr.denoteAs, hdenote inputs values σ.values hsees, Option.map_some,
    Option.map_some, Lowered.eval_coerce hscalar]

end Lowering

variable {V ι : Type} {I : Interpretation V} {M : Machine ι} {l : Lowering} {expand : Expansion}
  {Γ : Interface} {S : MemberPlace} {W : View I S} {x : Execution I M} {name : DraftTarget → ι}
  {e : Draft} {cycles : Option Nat}

section

variable (l expand Γ W x name e)

/-- What an expression is lowered to has the value of the expression in the wanted type, in a machine
that is made from the draft `e`. -/
def Delivers (source : Expr) (denote : HwType → Store V → Option V) : Prop :=
  ∀ ⦃d d' : Draft⦄ ⦃type : HwType⦄ ⦃v : Lowered⦄, l.value expand source type d = .ok (v, d') →
    d.isClosed = false → d.Plain S → d.Lacks source.callIds →
    d.Proceeds S source.callIds d' ∧ ∀ σ, x.Carries name e Γ True d d' True (W.shows · σ) fun _ m ↦
      W.shows m σ ∧ ∃ u, denote type σ = some u ∧
        ∀ inputs, (v.coerce type).eval I inputs m.values = u

def Performs (source : Expr) (effect : Store V → Option Unit) : Prop :=
  ∀ ⦃d d' : Draft⦄, l.prepare expand source d = .ok d' → d.isClosed = false → d.Plain S →
    d.Lacks source.callIds →
    d.Proceeds S source.callIds d' ∧ (source.isCall → d'.isEvaluated source) ∧
      ∀ σ, x.Carries name e Γ True d d' True (W.shows · σ) fun _ m ↦ W.shows m σ ∧ effect σ = some ()

structure Delivered (E : Meaning V) (source : Expr) : Prop where
  delivers : Delivers l expand Γ W x name e source (E.value source)
  performs : Performs l expand Γ W x name e source (E.effect source)

variable (cycles)

/-- The states that a statement is lowered to do what it does, in a machine that is made from the
draft `e`. -/
def Refines (s : Stmt) (run : Store V → Option (Outcome × Store V)) : Prop :=
  ∀ ⦃d d' : Draft⦄, l.stmt expand s d = .ok d' → d.isClosed = false → d.Plain S →
    d.Lacks s.callIds → d.Proceeds S s.callIds d' ∧
    ∀ ⦃L : Multiset Nat⦄ ⦃t : Nat⦄ ⦃m : Memory V⦄ ⦃σ : Store V⦄, d.Proper Γ L → Γ.Covers d' →
      d'.KeptIn L e → x.Stands name t d m → W.shows m σ →
      x.Follows name W cycles (fun t m ↦ x.Stands name t d' m) t d' (run σ)

end

/-- An expression without calls means what it is lowered to. -/
theorem Delivered.simple {source : Expr} (he : source.IsSimpleBeside S.calls) :
    Delivered l expand Γ W x name e (.simple I S.toScope) source where
  delivers d d' type v h ho hplain _ := by
    obtain ⟨rfl, hvalue⟩ := Lowering.value_simple (I := I) hplain he h
    refine ⟨.refl hplain, fun σ ↦ (Execution.Carries.refl ho fun _ ↦ trivial).conseq id
      (fun _ h ↦ h) (fun _ _ ↦ trivial) fun m m' hm heq ↦ ?_⟩
    subst heq
    have hsees := W.sees hm
    exact ⟨hm, _, hvalue type (fun _ ↦ I.bool false) _ _ hsees, fun inputs ↦ Option.some.inj
      ((hvalue type inputs _ _ hsees).symm.trans (hvalue type (fun _ ↦ I.bool false) _ _ hsees))⟩
  performs d d' h ho hplain _ := by
    rw [Lowering.prepare_simple expand he.simple d] at h
    obtain rfl := Except.ok.inj h
    refine ⟨.refl hplain, fun hcall ↦ ?_, fun σ ↦ (Execution.Carries.refl ho fun _ ↦ trivial).conseq
      id (fun _ h ↦ h) (fun _ _ ↦ trivial) fun m m' hm heq ↦ ?_⟩
    · cases source with
      | call => exact (he.simple _ (Expr.mem_nodes_self _)).elim
      | _ => exact nomatch hcall
    · subst heq
      exact ⟨hm, rfl⟩

namespace Refines

variable {d d' : Draft} {L : Multiset Nat} {t : Nat} {m : Memory V} {σ : Store V} {E : Meaning V}
  {limit : Nat}

theorem follows_set (hM : M.Realizes name e.code) (hs : x.Stands name t d m)
    (hd : d.Valid (d.looseExits + L)) {target : String} {type : HwType} {value : HwExpr} {u : V}
    {cost : Binary64} (ht : S.type? target = some type)
    (hvalue : ∀ inputs, value.eval I inputs m.values = u) (hm : W.shows m σ)
    (he : (d.emit (.setVariable (S.qualifier ++ target) value) cost).KeptIn L e) :
    x.Follows name W cycles (fun t m ↦ x.Stands name t
        (d.emit (.setVariable (S.qualifier ++ target) value) cost) m) t
      (d.emit (.setVariable (S.qualifier ++ target) value) cost) (some (.normal, σ.set target u)) := by
  obtain ⟨t', hworks, hs'⟩ := hs.emit hM hd he
  refine (Execution.Follows.of_normal ?_ hs').after hworks
  have hexec : HwStmt.exec I (x.inputs t') (.setVariable (S.qualifier ++ target) value) m =
      m.setVariable (S.qualifier ++ target) (value.eval I (x.inputs t') m.values) := rfl
  rw [hexec, hvalue]
  exact W.set u hm ht

theorem follows_assign (hM : M.Realizes name e.code) {source : Expr} {d₁ : Draft} {target : String}
    {type : HwType} {v : Lowered}
    (hcarries : x.Carries name e Γ True d d₁ True (W.shows · σ) fun _ m ↦
      W.shows m σ ∧ ∃ u, E.value source type σ = some u ∧
        ∀ inputs, (v.coerce type).eval I inputs m.values = u)
    (hd : d.Proper Γ L) (hs : x.Stands name t d m) (hm : W.shows m σ)
    (ht : S.type? target = some type) {d₂ : Draft}
    (hsite : ∀ L R E, d₂.site L R E = d₁.site L R E) (hexits : d₂.looseExits = d₁.looseExits)
    (hcovers : Γ.Covers d₁)
    (he : (d₂.emit (.setVariable (S.qualifier ++ target) (v.coerce type)) v.cost).KeptIn L e) :
    x.Follows name W cycles (fun t m ↦ x.Stands name t
        (d₂.emit (.setVariable (S.qualifier ++ target) (v.coerce type)) v.cost) m) t
      (d₂.emit (.setVariable (S.qualifier ++ target) (v.coerce type)) v.cost)
      ((σ.assignIn S.toScope E target source).map fun σ ↦ (.normal, σ)) := by
  obtain ⟨-, hd₁, -, -⟩ := hcarries.reaches.proper trivial hcovers hd
  have hvalid : d₂.Valid (d₂.looseExits + L) := by
    obtain ⟨E, hg⟩ := hd₁.valid
    exact ⟨E, by rwa [hsite, hexits]⟩
  have hopen : d₂.isClosed = false :=
    (congrArg Site.isClosed (hsite 0 0 ∅)).trans hcarries.opened
  have hkept := ((Draft.before_emit Γ hvalid hopen _ _).keptIn he).of_site hexits hsite
  obtain ⟨t₁, m₁, hworks, hs₁, hm₁, u, hu, heval⟩ :=
    hcarries.follows trivial hd hcovers hkept hs hm
  rw [Store.assignIn, ht, Option.bind_some, hu]
  exact (follows_set hM (hs₁.of_site hsite) hvalid ht heval hm₁ he).after hworks

/-- A variable that is declared is set to its initial value. -/
theorem declare (hM : M.Realizes name e.code) {id : NodeId} {target : String} {type : TypeRef}
    {init : Option Expr} (hscalar : type.scalarHardware?.isSome)
    (htypes : S.Types (.declare id target type init))
    (hinit : ∀ source ∈ init, Delivers l expand Γ W x name e source (E.value source)) :
    Refines l expand Γ W x name e cycles (.declare id target type init)
      (Stmt.runIn I S.toScope E limit (.declare id target type init)) := by
  intro d d' h ho hplain hlacks
  rw [Lowering.stmt, if_neg (by simp [ho])] at h
  obtain ⟨hw, hhw, hcases⟩ := Lowering.declare_eq_ok h
  have ht : S.type? target = some hw := by
    rw [← TypeRef.hardware_scalar hhw hscalar]
    exact htypes (target, type) (by simp [Stmt.locals, Stmt.nodes])
  obtain ⟨rfl, hd'⟩ | ⟨source, v, d₁, rfl, hv, hd'⟩ := hcases
  · obtain ⟨-, hproceeds⟩ := hplain.declare ht ("local " ++ target)
    change d' = d.declareLocal target hw ("local " ++ target) at hd'
    subst hd'
    refine ⟨hproceeds.mono (List.nil_subset _), fun L t m σ _ _ _ hs hm ↦ ?_⟩
    rw [Stmt.runIn]
    exact .of_normal hm (hs.of_site Draft.site_declareLocal)
  · have hsource : source.callIds ⊆ Stmt.callIds (.declare id target type (some source)) :=
      Stmt.callIds_expr (by simp [Stmt.exprs])
    obtain ⟨hproceeds₁, hcarries⟩ := hinit source rfl hv ho hplain (hlacks.mono hsource)
    obtain ⟨hname, hproceeds₂⟩ := hproceeds₁.plain.declare ht ("local " ++ target)
    change d' = (d₁.declareLocal target hw ("local " ++ target)).emit
      (.setVariable (d₁.declare target hw ("local " ++ target)).1 (v.coerce hw)) v.cost at hd'
    rw [hname] at hd'
    subst hd'
    have hscope := Draft.sameScope_emit (d₁.declareLocal target hw ("local " ++ target))
      (.setVariable (S.qualifier ++ target) (v.coerce hw)) v.cost
    refine ⟨(hproceeds₁.mono hsource).trans ((hproceeds₂.mono (List.nil_subset _)).trans
      (.of_sameScope hproceeds₂.plain hscope) (List.Subset.refl _)) (List.Subset.refl _),
      fun L t m σ hd hcovers he hs hm ↦ ?_⟩
    rw [Stmt.runIn]
    refine follows_assign hM (hcarries σ) hd hs hm ht Draft.site_declareLocal
      Draft.looseExits_declareLocal ?_ he
    exact List.Subset.trans Draft.declarations_declareLocal (hcovers.mono (.of_sameScope hscope))

theorem assign (hM : M.Realizes name e.code) {id : NodeId} {target : AssignTarget} {source : Expr}
    (hsource : Delivers l expand Γ W x name e source (E.value source)) :
    Refines l expand Γ W x name e cycles (.assign id target source)
      (Stmt.runIn I S.toScope E limit (.assign id target source)) := by
  intro d d' h ho hplain hlacks
  rw [Lowering.stmt, if_neg (by simp [ho])] at h
  obtain ⟨variableName, x, type, v, d₁, htarget, hb, hv, rfl⟩ := Lowering.assign_eq_ok h
  obtain ⟨_, heq, ht⟩ := hplain.lookup hb
  obtain ⟨rfl, rfl⟩ := Binding.variable.inj heq
  have hids := Stmt.callIds_expr (s := .assign id target source) (e := source) (by simp [Stmt.exprs])
  obtain ⟨hproceeds, hcarries⟩ := hsource hv ho hplain (hlacks.mono hids)
  have hscope := Draft.sameScope_emit d₁ (.setVariable (S.qualifier ++ variableName) (v.coerce type))
    v.cost
  refine ⟨(hproceeds.mono hids).trans (.of_sameScope hproceeds.plain hscope)
    (List.Subset.refl _), fun L t m σ hd hcovers he hs hm ↦ ?_⟩
  have hrun : Stmt.runIn I S.toScope E limit (.assign id target source) σ =
      (σ.assignIn S.toScope E variableName source).map fun σ ↦ (.normal, σ) := by
    obtain rfl | rfl := htarget
    · rw [Stmt.runIn]
    · rw [Stmt.runIn]
  rw [hrun]
  exact follows_assign hM (hcarries σ) hd hs hm ht (fun _ _ _ ↦ rfl) rfl
    (hcovers.mono (.of_sameScope hscope)) he

theorem follows_leave (hM : M.Realizes name e.code) (hs : x.Stands name t d m)
    (hd : d.current ∉ d.looseExits + L) (he : d.leave.KeptIn L e) (hm : W.shows m σ)
    {here : Nat → Memory V → Prop} :
    x.Follows name W cycles here t d.leave (some (.returned, σ)) := by
  have hexpanded : d.leave.frame.isExpanded = d.frame.isExpanded := rfl
  cases hframe : d.frame.isExpanded with
  | false =>
    obtain ⟨t', -, hworks, henters⟩ := hs.leave hM hd hframe he
    refine ⟨t', m, hm, hworks, ?_⟩
    unfold Execution.Exits Execution.Returned
    rwa [hexpanded, hframe, if_neg Bool.false_ne_true]
  | true =>
    refine ⟨t, m, hm, .refl t, ?_⟩
    have hreturns : d.leave.frame.returns = d.frame.returns ++ [d.current] := if_pos hframe
    have hcode : d.leave.code = d.code.redirect d.current (.goto .finished) :=
      d.code_setTransition d.current _
    unfold Execution.Exits Execution.Returned
    rw [hexpanded, hframe, if_pos rfl, hreturns]
    obtain ⟨b, hb, hat⟩ := hs.ran
    refine ⟨d.current, by simp, { b with transition := .goto .finished }, ?_, hat⟩
    rw [hcode, Code.getElem?_redirect_eq, hb, Option.map_some]

theorem ret (hM : M.Realizes name e.code) {id : NodeId} {value : Option Expr}
    (hvalue : ∀ source ∈ value, Delivered l expand Γ W x name e E source) :
    Refines l expand Γ W x name e cycles (.ret id value)
      (Stmt.runIn I S.toScope E limit (.ret id value)) := by
  intro d d' h ho hplain hlacks
  rw [Lowering.stmt, if_neg (by simp [ho])] at h
  have hids (source : Expr) : source.callIds ⊆ Stmt.callIds (.ret id (some source)) :=
    Stmt.callIds_expr (by simp [Stmt.exprs])
  have hresult := hplain.returnType
  obtain ⟨source, type, v, d₁, rfl, htype, hv, rfl⟩ | ⟨rfl, htype, rfl⟩ |
    ⟨source, d₁, rfl, htype, hprepare, rfl⟩ := Lowering.ret_eq_ok h
  · replace hresult : S.result = some type := hresult.symm.trans htype
    have htarget : Lowering.returnTarget d = S.target := by
      unfold Lowering.returnTarget
      rw [hplain.returnVariable]
      rfl
    rw [htarget]
    obtain ⟨hproceeds, hcarries⟩ :=
      (hvalue source rfl).delivers hv ho hplain (hlacks.mono (hids source))
    have hscope := Draft.sameScope_emit d₁ (.assign S.target (v.coerce type)) v.cost
    have hplain₂ := hproceeds.plain.of_sameScope hscope
    refine ⟨(hproceeds.mono (hids source)).trans
      ((Draft.Proceeds.of_sameScope hproceeds.plain hscope).trans (.leave hplain₂)
        (List.Subset.refl _)) (List.Subset.refl _), fun L t m σ hd hcovers he hs hm ↦ ?_⟩
    have hcovers₂ : Γ.Covers (d₁.emit (.assign S.target (v.coerce type)) v.cost) := hcovers
    have hcovers₁ : Γ.Covers d₁ := hcovers₂.mono (.of_sameScope hscope)
    obtain ⟨-, hd₁, -, -⟩ := (hcarries σ).reaches.proper trivial hcovers₁ hd
    have hopen := (hcarries σ).opened
    have hkept := (Draft.before_leave (Draft.isClosed_emit hopen _ _)).keptIn he
    obtain ⟨t₁, m₁, hworks₁, hs₁, hm₁, u, hu, heval⟩ := (hcarries σ).follows trivial hd hcovers₁
      ((Draft.before_emit Γ hd₁.valid hopen _ _).keptIn hkept) hs hm
    obtain ⟨t₂, hworks₂, hs₂⟩ := hs₁.emit hM hd₁.valid hkept
    have hm₂ := W.give (x.inputs t₂) (v.coerce type) hresult hm₁
    rw [heval] at hm₂
    have hgive : σ.giveIn S.toScope E (some source) = some { σ with result := some u } := by
      unfold Store.giveIn
      rw [hresult]
      exact congrArg (Option.map _) hu
    rw [Stmt.runIn, hgive]
    exact (follows_leave hM hs₂ (hd₁.valid.not_mem_reserve hopen _) he hm₂).after
      (hworks₁.trans hworks₂)
  · replace hresult : S.result = none := hresult.symm.trans htype
    refine ⟨.leave hplain, fun L t m σ hd _ he hs hm ↦ ?_⟩
    have hgive : σ.giveIn S.toScope E none = some σ := by
      unfold Store.giveIn
      rw [hresult]
    rw [Stmt.runIn, hgive]
    exact follows_leave hM hs (hd.valid.not_mem ho) he hm
  · replace hresult : S.result = none := hresult.symm.trans htype
    obtain ⟨hproceeds, -, hcarries⟩ :=
      (hvalue source rfl).performs hprepare ho hplain (hlacks.mono (hids source))
    refine ⟨(hproceeds.mono (hids source)).trans (.leave hproceeds.plain) (List.Subset.refl _),
      fun L t m σ hd hcovers he hs hm ↦ ?_⟩
    obtain ⟨-, hd₁, -, -⟩ := (hcarries σ).reaches.proper trivial hcovers hd
    obtain ⟨t₁, m₁, hworks, hs₁, hm₁, heffect⟩ := (hcarries σ).follows trivial hd hcovers
      ((Draft.before_leave (hcarries σ).opened).keptIn he) hs hm
    have hgive : σ.giveIn S.toScope E (some source) = some σ := by
      unfold Store.giveIn
      rw [hresult]
      exact congrArg (Option.map _) heffect
    rw [Stmt.runIn, hgive]
    exact (follows_leave hM hs₁ (hd₁.valid.not_mem hs₁.opened) he hm₁).after hworks

theorem eval {id : NodeId} {source : Expr} (hcall : source.isCall)
    (hsource : Performs l expand Γ W x name e source (E.effect source)) :
    Refines l expand Γ W x name e cycles (.eval id source)
      (Stmt.runIn I S.toScope E limit (.eval id source)) := by
  intro d d' h ho hplain hlacks
  rw [Lowering.stmt, if_neg (by simp [ho])] at h
  obtain ⟨d₁, hprepare, h⟩ := Lowering.eval_eq_ok h
  have hids := Stmt.callIds_expr (s := .eval id source) (e := source) (by simp [Stmt.exprs])
  obtain ⟨hproceeds, hevaluated, hcarries⟩ := hsource hprepare ho hplain (hlacks.mono hids)
  obtain ⟨-, rfl⟩ | ⟨hnot, -⟩ := h
  swap
  · cases (hevaluated hcall).symm.trans hnot
  refine ⟨hproceeds.mono hids, fun L t m σ hd hcovers he hs hm ↦ ?_⟩
  obtain ⟨t₁, m₁, hworks, hs₁, hm₁, heffect⟩ := (hcarries σ).follows trivial hd hcovers he hs hm
  rw [Stmt.runIn, heffect]
  exact (Execution.Follows.of_normal hm₁ hs₁).after hworks

theorem breakLoop {id : NodeId} : Refines l expand Γ W x name e cycles (.breakLoop id)
    (Stmt.runIn I S.toScope E limit (.breakLoop id)) := by
  intro d d' h ho hplain _
  rw [Lowering.stmt, if_neg (by simp [ho])] at h
  obtain ⟨exits, rest, -, rfl⟩ := Lowering.exitLoop_eq_ok h
  refine ⟨.of_eq hplain rfl rfl rfl rfl, fun L t m σ _ _ _ hs hm ↦ ?_⟩
  rw [Stmt.runIn]
  exact ⟨t, m, hm, .refl t, _, rfl, d.current, by simp, hs.ran⟩

theorem continueLoop {id : NodeId} : Refines l expand Γ W x name e cycles (.continueLoop id)
    (Stmt.runIn I S.toScope E limit (.continueLoop id)) := by
  intro d d' h ho hplain _
  rw [Lowering.stmt, if_neg (by simp [ho])] at h
  obtain ⟨exits, rest, -, rfl⟩ := Lowering.exitLoop_eq_ok h
  refine ⟨.of_eq hplain rfl rfl rfl rfl, fun L t m σ _ _ _ hs hm ↦ ?_⟩
  rw [Stmt.runIn]
  exact ⟨t, m, hm, .refl t, _, rfl, d.current, by simp, hs.ran⟩

theorem stmtList_of_closed (ss : List Stmt) (hc : d.isClosed = true) :
    l.stmtList expand ss d = .ok d := by
  induction ss with
  | nil => rw [Lowering.stmtList]
  | cons s ss ih => rw [Lowering.stmtList, Lowering.stmt_of_closed hc, Synthesis.ok_bind, ih]

/-- Statements are run one after another. What follows a statement that does not end normally is not
reached. -/
theorem stmtList (hΓ : Γ.Sees l) (hexpand : expand.Sound Γ) {ss : List Stmt}
    (hgroup : ∀ s ∈ ss, Γ.program.CallsGrouped → s.Grouped l.program)
    (hss : ∀ s ∈ ss, Refines l expand Γ W x name e cycles s (s.runIn I S.toScope E limit))
    (hids : (ss.flatMap Stmt.callIds).Nodup) (h : l.stmtList expand ss d = .ok d')
    (ho : d.isClosed = false) (hplain : d.Plain S) (hlacks : d.Lacks (ss.flatMap Stmt.callIds)) :
    d.Proceeds S (ss.flatMap Stmt.callIds) d' ∧
    ∀ ⦃L : Multiset Nat⦄ ⦃t : Nat⦄ ⦃m : Memory V⦄ ⦃σ : Store V⦄, d.Proper Γ L → Γ.Covers d' →
      d'.KeptIn L e → x.Stands name t d m → W.shows m σ →
      x.Follows name W cycles (fun t m ↦ x.Stands name t d' m) t d'
        (Stmt.runInList I S.toScope E limit ss σ) := by
  induction ss generalizing d with
  | nil =>
    rw [Lowering.stmtList] at h
    obtain rfl := Except.ok.inj h
    refine ⟨.refl hplain, fun L t m σ _ _ _ hs hm ↦ ?_⟩
    rw [Stmt.runInList]
    exact .of_normal hm hs
  | cons s ss ih =>
    rw [Lowering.stmtList] at h
    obtain ⟨d₁, h₁, h₂⟩ := Synthesis.bind_eq_ok.1 h
    rw [List.flatMap_cons] at hids hlacks ⊢
    obtain ⟨-, hrestIds, hapart⟩ := List.nodup_append.1 hids
    have hleft := List.subset_append_left s.callIds (ss.flatMap Stmt.callIds)
    have hright := List.subset_append_right s.callIds (ss.flatMap Stmt.callIds)
    have hrestGroup (s) (hmem : s ∈ ss) := hgroup s (List.mem_cons_of_mem _ hmem)
    have hrest (s) (hmem : s ∈ ss) := hss s (List.mem_cons_of_mem _ hmem)
    obtain ⟨hproceeds₁, hfollows⟩ := hss s List.mem_cons_self h₁ ho hplain (hlacks.mono hleft)
    obtain ⟨B, C, R, he₁⟩ := Lowering.evolves_stmt hΓ hexpand s (hgroup s List.mem_cons_self) h₁
    obtain ⟨B', C', R', he₂⟩ := Lowering.rel_of_stmtList (.refl Γ) .trans
      (fun s hs {_ _} ↦ Lowering.evolves_stmt hΓ hexpand s (hrestGroup s hs)) h₂
    have hlacks₁ : d₁.Lacks (ss.flatMap Stmt.callIds) :=
      hproceeds₁.lacks (hlacks.mono hright) fun id hid hid' ↦ hapart id hid id hid' rfl
    have hproceeds : d.Proceeds S (s.callIds ++ ss.flatMap Stmt.callIds) d' := by
      cases hc : d₁.isClosed with
      | false =>
        exact (hproceeds₁.mono hleft).trans
          ((ih hrestGroup hrest hrestIds h₂ hc hproceeds₁.plain hlacks₁).1.mono hright)
          (List.Subset.refl _)
      | true =>
        rw [stmtList_of_closed ss hc] at h₂
        exact Except.ok.inj h₂ ▸ hproceeds₁.mono hleft
    refine ⟨hproceeds, fun L t m σ hd hcovers he hs hm ↦ ?_⟩
    obtain ⟨hd₁, -⟩ := Draft.Proper.evolve he₁ (hcovers.mono he₂.toGrows) hd
    obtain ⟨-, hbefore⟩ := Draft.Proper.evolve he₂ hcovers hd₁
    rw [Stmt.runInList]
    refine (hfollows hd (hcovers.mono he₂.toGrows) (hbefore.keptIn he) hs hm).andThen
      (fun t' m' σ' _ hm' hs' ↦ ?_) hbefore he₂.toGrows
    exact (ih hrestGroup hrest hrestIds h₂ hs'.opened hproceeds₁.plain hlacks₁).2 hd₁ hcovers he hs' hm'

end Refines

end Fabric
