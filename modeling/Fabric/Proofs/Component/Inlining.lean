import Fabric.Proofs.Component.Expansion
import Fabric.Proofs.Component.Refinement
import Fabric.Proofs.Construction.Reached

namespace Fabric

variable {V ι : Type} {I : Interpretation V} {M : Machine ι} {x : Execution I M}
  {name : DraftTarget → ι} {z : Draft} {Γ : Interface} {l : Lowering}

namespace MethodDecl.IsStraight

variable {m : MethodDecl} {code : Stmt}

theorem nodup_parameters (hm : m.IsStraight) : (m.parameters.map Parameter.name).Nodup := by
  have hnodup := hm.names
  rw [locals, List.map_append, List.map_map] at hnodup
  exact (List.nodup_append.1 hnodup).1

theorem fits (hm : m.IsStraight) (hcode : m.body = some code) {calls : List NodeId}
    (huses : code.Uses (Expr.IsSimpleBeside calls) (Expr.IsSimpleBeside calls)) (l : Lowering)
    (Γ : Interface) (k : Nat) (value : Option String) :
    code.Fits l Γ (m.callPlace k value calls) (Expr.IsSimpleBeside calls) False := by
  have hsimple := hm.body code hcode
  refine ⟨huses, types_scope hm.isScalar hcode, fun t ht hloop ↦ ?_,
    fun _ ↦ hsimple.grouped l.program, by simp [hsimple.callIds]⟩
  rw [Stmt.isLoop_of_isStraight (hm.straight code hcode) t ht] at hloop
  exact absurd hloop Bool.false_ne_true

theorem alike_call (hm : m.IsStraight) (hcode : m.body = some code) {σ : Store V} {f : String → V}
    (hσ : ∀ y ∈ m.parameters.map Parameter.name, σ.values y = f y) (hresult : σ.result = none) :
    Stmt.Alike m.scope (code.binds m.hasParameter) (code.run I m.scope 0 σ)
      (code.run I m.scope 0
        (m.parameters.foldl (fun σ p ↦ σ.set p.name (f p.name)) (.blank I))) := by
  refine Stmt.alike_run (hm.straight code hcode) (fun y hy ↦ ?_)
    (hresult.trans (result_setParameters m.parameters f (.blank I)).symm)
  have hy := List.contains_iff_mem.1 hy
  rw [values_setParameters, if_pos hy]
  exact hσ y hy

end MethodDecl.IsStraight

theorem Execution.follows_callBody (hM : M.Realizes name z.code) (hΓ : Γ.Sees l) {m : MethodDecl}
    (hm : m.IsStraight) (hreturns : m.Returns I) {code : Stmt} (hcode : m.body = some code) {k : Nat}
    {value : Option String} {calls : List NodeId}
    (huses : code.Uses (Expr.IsSimpleBeside calls) (Expr.IsSimpleBeside calls))
    (hS : (m.callPlace k value calls).IsCall) {callee : String} {arguments : List Argument}
    (hnames : (arguments.map fun a ↦ a.name) = m.parameters.map Parameter.name)
    (htypes : ∀ a ∈ arguments, m.scope.type? a.name = some a.type) {d d' : Draft}
    (ho : d.isClosed = false) (hd : d.Plain (m.callPlace k value calls))
    (h : l.stmt Lowering.noExpansion code (d.bindArguments callee arguments) = .ok d')
    (m₀ : Memory V) :
    d.Proceeds (m.callPlace k value calls) [] d' ∧ (Γ.Covers d' → Γ.Covers d) ∧
    ∀ ⦃L : Multiset Nat⦄ ⦃t : Nat⦄ ⦃f : String → V⦄, d.Proper Γ L → Γ.Covers d' →
      d'.KeptIn L z → x.Stands name t d m₀ → (∀ a ∈ arguments, a.value.Typed Γ) →
      (∀ a ∈ arguments, ∀ inputs m', m₀.Spares m' →
        (a.value.coerce a.type).eval I inputs m'.values = f a.name) →
      d'.Proper Γ L ∧ ∃ t' m' σ, x.Works name t t' ∧ (∃ i ∈ d'.callExits, x.Ran name t' d'.code i m') ∧
        m₀.Spares m' ∧ m.run I 0 f (.blank I) = some σ ∧
        (m.scope.result.isSome → ∃ u, σ.result = some u ∧ ∀ y ∈ value, m'.values y = u) := by
  have hsimple : code.IsSimple := hm.body code hcode
  have hbind := Draft.reaches_bindArguments (Γ := Γ) callee arguments ho
  have hproceeds : d.Proceeds (m.callPlace k value calls) [] (d.bindArguments callee arguments) :=
    .bindArguments hd callee htypes
  have hbody : Refines l Lowering.noExpansion Γ (View.call I hS m₀) x name z none code
      (code.run I m.scope 0) := by
    rw [hsimple.run_eq]
    exact Lowering.refines_stmt x 0 hM hΓ (Lowering.sound_noExpansion Γ) (fun _ ↦ .simple)
      False.elim code (hm.fits hcode huses l Γ k value)
  obtain ⟨hproceeds', hfollows⟩ := hbody h hbind.opened hproceeds.plain
    (by simp [hsimple.callIds, Draft.Lacks])
  rw [hsimple.callIds] at hproceeds'
  obtain ⟨B, C, R, hevolves⟩ := Lowering.evolves_stmt hΓ (Lowering.sound_noExpansion Γ) code
    (fun _ ↦ hsimple.grouped l.program) h
  obtain ⟨B', C', hbound⟩ := hbind.evolves
  refine ⟨hproceeds.trans hproceeds' (List.Subset.refl _),
    fun hc ↦ (hc.mono hevolves.toGrows).mono hbound.toGrows,
    fun L t f hproper hc hz hs htyped hf ↦ ?_⟩
  have hc₁ := hc.mono hevolves.toGrows
  obtain ⟨-, hproper₁, -, -⟩ := hbind.proper htyped hc₁ hproper
  obtain ⟨hproper', hbefore⟩ := Draft.Proper.evolve hevolves hc hproper₁
  obtain ⟨t₁, m₁, hworks₁, hs₁, hspares, hset, -⟩ :=
    (Execution.Carries.bindArguments hM hS callee ho hd (hnames ▸ hm.nodup_parameters) htypes
      hf).follows htyped hproper hc₁ (hbefore.keptIn hz) hs (.refl m₀)
  let σ₀ : Store V := ⟨fun y ↦ m₁.values ((m.callPlace k value calls).qualifier ++ y), none⟩
  have hshows : (m.callPlace k value calls).Shows m₀ m₁ σ₀ := ⟨fun _ _ _ ↦ rfl, nofun, hspares⟩
  have hfollows := hfollows hproper₁ hc hz hs₁ hshows
  have halike := hm.alike_call (I := I) hcode (σ := σ₀) (f := f) (fun y hy ↦ by
    rw [← hnames] at hy
    obtain ⟨a, ha, rfl⟩ := List.mem_map.1 hy
    exact hset a ha) rfl
  refine ⟨hproper', ?_⟩
  rw [MethodDecl.run, hcode, Option.bind_some]
  generalize hcall : code.run I m.scope 0 (m.parameters.foldl _ (.blank I)) = r' at halike ⊢
  cases hrun : code.run I m.scope 0 σ₀ with
  | none =>
    rw [hrun] at hfollows
    obtain ⟨n, hn, -⟩ := hfollows
    exact nomatch hn
  | some r =>
    obtain ⟨o, σ⟩ := r
    rw [hrun] at hfollows halike
    obtain ⟨t', m', hm', hworks', hexits⟩ := hfollows
    have hworks := hworks₁.trans hworks'
    cases halike with
    | normal hv hresult =>
      have hs' : x.Stands name t' d' m' := hexits
      refine ⟨t', m', _, hworks, ⟨d'.current, Draft.mem_callExits.2 (.inr ⟨hs'.opened, rfl⟩), hs'.ran⟩,
        hm'.spares, rfl, fun h ↦ ?_⟩
      refine nomatch hreturns (fun hvoid ↦ ?_) code hcode f .normal _ hcall
      rw [MethodDecl.scope, hvoid] at h
      exact nomatch h
    | returned hgiven hresult =>
      have hreturned : x.Returned name t' d' m' := hexits
      unfold Execution.Returned at hreturned
      rw [hproceeds'.plain.isExpanded, MethodDecl.callPlace, if_pos rfl] at hreturned
      obtain ⟨i, hi, hran⟩ := hreturned
      refine ⟨t', m', _, hworks, ⟨i, Draft.mem_callExits.2 (.inl hi), hran⟩, hm'.spares, rfl,
        fun h ↦ ?_⟩
      obtain ⟨u, hu⟩ := Option.isSome_iff_exists.1 (hgiven h)
      exact ⟨u, hresult.symm.trans hu, hm'.result u hu⟩

/-- A change that spares the variables without a dot cannot be seen by a member that has only such. -/
theorem MemberPlace.Sees.of_spares {S : Scope} (hS : S.Dotless) {calls : List NodeId}
    {m m' : Memory V} {source : String → V} (h : (S.own calls).Sees m.values source)
    (hspares : m.Spares m') : (S.own calls).Sees m'.values source := by
  intro y type hy
  have hname : "" ++ y = y := String.empty_append
  refine Eq.trans ?_ (h y type hy)
  exact hspares.values ("" ++ y) (hname.symm ▸ hS y type hy)

namespace Lowering

theorem arguments_simple {h : MemberHandle} (hm : (l.program.tree.method h).IsStraight) {S : Scope}
    {calls : List NodeId} {args : List Expr} (hargs : ∀ e ∈ args, e.IsSimpleBeside calls)
    {d d' : Draft} (hd : d.Plain (S.own calls)) {arguments : List Argument}
    (ha : l.arguments h args d = .ok (arguments, d')) :
    d' = d ∧ (arguments.map fun a ↦ a.name) =
      (l.program.tree.method h).parameters.map Parameter.name ∧
    (∀ a ∈ arguments, (l.program.tree.method h).scope.type? a.name = some a.type) ∧
    ∀ (values : String → V) (source : Store V), (S.own calls).Sees values source.values →
      ∃ f, (l.program.tree.method h).call I S args source =
          (l.program.tree.method h).run I 0 f (.blank I) ∧
        ∀ a ∈ arguments, ∀ inputs values', (S.own calls).Sees values' source.values →
          (a.value.coerce a.type).eval I inputs values' = f a.name := by
  obtain ⟨hlength, ha⟩ := arguments_eq_ok ha
  generalize l.program.tree.method h = m at *
  have hnames : (m.parameters.zip args).map (Parameter.name ∘ Prod.fst) =
      m.parameters.map Parameter.name := by
    rw [← List.map_map, List.map_fst_zip hlength.le]
  have hsimple (p) (hp : p ∈ m.parameters.zip args) :
      p.1.type.scalarHardware?.isSome ∧ p.2.IsSimpleBeside (S.own calls).calls :=
    ⟨hm.parameters p.1 (List.of_mem_zip hp).1, hargs p.2 (List.of_mem_zip hp).2⟩
  have hnodup : ((m.parameters.zip args).map fun p ↦ p.1.name).Nodup := hnames ▸ hm.nodup_parameters
  obtain ⟨rfl, harguments, htypes, hvalues⟩ := evalArguments_simple (I := I) hd hsimple hnodup ha
  refine ⟨rfl, harguments.trans hnames, fun a ha ↦ ?_, fun values source hsees ↦ ?_⟩
  · obtain ⟨p, hp, hname, htype⟩ := htypes a ha
    have hmem : (p.1.name, p.1.type) ∈ m.locals :=
      List.mem_append_left _ (List.mem_map_of_mem (List.of_mem_zip hp).1)
    rw [← hname, MethodDecl.scope_type? hm.isScalar hmem]
    exact htype
  · obtain ⟨f, hf, heval⟩ := hvalues values source.values hsees
    refine ⟨f, ?_, heval⟩
    rw [MethodDecl.call, if_pos hlength]
    exact hf ▸ rfl

theorem carries_expand (hM : M.Realizes name z.code) (hΓ : Γ.Sees l) {S : Scope} (hS : S.Dotless)
    {calls : List NodeId} {h : MemberHandle} (hm : (l.program.tree.method h).IsStraight)
    (hreturns : (l.program.tree.method h).Returns I)
    (huses : ∀ code ∈ (l.program.tree.method h).body,
      code.Uses (Expr.IsSimpleBeside calls) (Expr.IsSimpleBeside calls))
    {args : List Expr} (hargs : ∀ e ∈ args, e.IsSimpleBeside calls) {d d' : Draft}
    {v : Option Lowered} (ho : d.isClosed = false) (hd : d.Plain (S.own calls))
    (he : l.expand (l.stmt noExpansion) h args d = .ok (v, d')) :
    d.Proceeds (S.own calls) [] d' ∧
    v = (l.program.tree.method h).scope.result.map (.ofVariable (tempName d.temporaries)) ∧
    ∀ source : Store V, x.Carries name z Γ True d d' (∀ w, v = some w → w.Typed Γ)
      (fun m ↦ (S.own calls).Sees m.values source.values) fun m m' ↦ m.Spares m' ∧
        ∃ σ, (l.program.tree.method h).call I S args source = some σ ∧
          ((l.program.tree.method h).scope.result.isSome →
            ∃ u, σ.result = some u ∧ m'.values (tempName d.temporaries) = u) := by
  have hreaches (hmem) := sound_expandBody hΓ (h := h) hmem he ho
  obtain ⟨code, arguments, d₁, returnType, d₂, hcode, harguments, htype, hrun, rfl, rfl⟩ :=
    expand_eq he
  have hreaches := hreaches (hΓ.program ▸ mem_handles_of_body hcode)
  obtain rfl := scope_result hm.isScalar htype
  obtain ⟨hd₁, hnames, htypes, hvalues⟩ := arguments_simple (I := I) hm hargs hd harguments
  subst hd₁
  have htyped := (reaches_arguments (Γ := Γ) harguments ho).1
  have hresult := reaches_resultVariable (Γ := Γ) (l.program.tree.memberFullName h)
    (l.program.tree.method h).scope.result ho
  obtain ⟨hvalue, -, -, -, -, hsite, -⟩ := resultVariable_spec (l.program.tree.memberFullName h)
    (l.program.tree.method h).scope.result d₁
  have hbody := Execution.follows_callBody (x := x) hM hΓ hm hreturns hcode (huses code hcode)
    (isCall_callPlace hm (d₁.expansions + 1) d₁.temporaries) hnames htypes
    (by exact hresult.opened) (plain_enterCall hS hd hm (l.program.tree.memberFullName h)) hrun
  refine ⟨proceeds_leaveCall hS hd hm (l.program.tree.memberFullName h)
    (hbody (x.config 0).memory).1, ?_,
    fun source ↦ ⟨hreaches, fun _ L t m hproper hc hz hs hsees ↦ ?_⟩⟩
  · rw [hvalue, Option.map_map]
    rfl
  obtain ⟨-, hcovers, hfollows⟩ := hbody m
  have hc₂ : Γ.Covers d₂ := by
    have hscope := hc.mono (.of_sameScope (d₂.sameScope_leaveCall _ _))
    exact hscope
  obtain ⟨hc₁, -⟩ := hreaches.proper trivial hc hproper
  obtain ⟨-, -, -, hargumentsTyped⟩ := htyped.proper trivial hc₁ hproper
  obtain ⟨-, hproper₁, -, hdeclares⟩ := hresult.proper trivial (hcovers hc₂) hproper
  obtain ⟨f, hcall, heval⟩ := hvalues m.values source hsees
  obtain ⟨hproper₂, t', m', σ, hworks, ⟨i, hi, hran⟩, hspares, hrun, hgives⟩ :=
    hfollows (proper_enterCall hproper₁ fun type ht ↦ by
      obtain ⟨name, hname, hd⟩ := hdeclares type ht
      exact ⟨name, by rw [hname]; rfl, hd⟩) hc₂ hz.of_leaveCall (hs.of_site hsite) hargumentsTyped
      fun a ha inputs m' hspares ↦ heval a ha inputs m'.values (hsees.of_spares hS hspares)
  obtain ⟨t'', hworks', hs'⟩ := hran.leaveCall hM hi hproper₂ hz
  refine ⟨t'', m', hworks.trans hworks', hs', hspares, σ, hcall.trans hrun, fun hsome ↦ ?_⟩
  obtain ⟨u, hu, hm'⟩ := hgives hsome
  obtain ⟨type, htype⟩ := Option.isSome_iff_exists.1 hsome
  exact ⟨u, hu, hm' _ (by rw [htype]; rfl)⟩

theorem prepareUpTo_evaluated {expand : Expansion} {e : Expr} {d : Draft}
    (he : d.isEvaluated e = true) (rounds : Nat) : l.prepareUpTo expand rounds e d = .ok d := by
  have hpending : d.isPending e = false := by
    rw [Draft.isPending.eq_def, he]
    rfl
  have hready : d.ready e = ⟨[], none⟩ := by
    rw [Draft.ready.eq_def, hpending]
    rfl
  cases rounds with
  | zero => rfl
  | succ rounds => rw [prepareUpTo, hready]

theorem prepare_call {expand : Expansion} {id : NodeId} {target : MemberRef} {args : List Expr}
    {h : MemberHandle} (hresolve : l.program.tree.resolveCall target = some h)
    (hinlined : l.plan.isInlined h = true) (hargs : ∀ e ∈ args, e.IsSimple) {d d' : Draft}
    (hd : d.result? id = none) (hp : l.prepare expand (.call id target args) d = .ok d') :
    ∃ v d₁, expand h args d = .ok (v, d₁) ∧ d' = d₁.setResult id v := by
  have hready : d.ready (.call id target args) = ⟨[.call id target args], none⟩ := by
    have hpending : d.isPending (.call id target args) = true := by
      rw [Draft.isPending, Draft.isEvaluated, Expr.id, hd]
      rfl
    have hsettled : args.any d.isPending = false :=
      List.any_eq_false.2 fun e he ↦ by simp [Draft.Plain.isPending (hargs e he)]
    rw [Draft.ready, hpending, hsettled]
    rfl
  unfold prepare at hp
  rw [prepareUpTo, hready] at hp
  obtain ⟨d₁, hinvoke, hp⟩ := Synthesis.bind_eq_ok.1 hp
  obtain ⟨⟨batch, d₂⟩, hgather, hinvoke⟩ := Synthesis.bind_eq_ok.1 hinvoke
  obtain ⟨h', args', hcallee, hgather⟩ := gather_eq_ok hgather
  have hcallee : (h', args') = (h, args) := by
    rw [callee, hresolve] at hcallee
    exact (Except.ok.inj hcallee).symm
  obtain ⟨rfl, rfl⟩ := Prod.mk.inj hcallee
  obtain ⟨-, v, d₃, hexpand, hgather⟩ | ⟨hfalse, -⟩ := hgather
  swap
  · cases hinlined.symm.trans hfalse
  obtain ⟨rfl, rfl⟩ := Prod.mk.inj (Except.ok.inj hgather)
  obtain rfl := Except.ok.inj hinvoke
  rw [prepareUpTo_evaluated] at hp
  · exact ⟨v, d₃, hexpand, (Except.ok.inj hp).symm⟩
  · rw [Draft.isEvaluated, Expr.id, result?_setResult_self]
    rfl

end Lowering

def View.beside (I : Interpretation V) (S : Scope) (calls : List NodeId) : View I (S.own calls) where
  shows m σ := (S.own calls).Sees m.values σ.values ∧ m.driven (.own .result) = σ.result
  sees h := h.1
  set {m σ y type} v h _ := by
    refine ⟨fun w typew hw ↦ ?_, h.2⟩
    have hsees := h.1 w typew hw
    have hy : (S.own calls).qualifier ++ y = y := String.empty_append
    have hw : (S.own calls).qualifier ++ w = w := String.empty_append
    rw [hw] at hsees ⊢
    rw [hy]
    unfold Memory.setVariable Store.set
    dsimp only
    rw [hsees]
  give _ _ _ h := ⟨h.1, rfl⟩

theorem Expr.callIds_call {id : NodeId} {target : MemberRef} {args : List Expr}
    (hargs : ∀ e ∈ args, e.IsSimple) : (Expr.call id target args).callIds = [id] := by
  have hnone : (nodesList args).filter isCall = [] := by
    rw [nodesList_eq, List.filter_flatMap, List.flatMap_eq_nil_iff]
    intro e he
    exact List.map_eq_nil_iff.1 (callIds_simple (hargs e he))
  unfold callIds
  rw [nodes, List.filter_cons_of_pos rfl, hnone]
  rfl

theorem Draft.Proceeds.setResult {S : MemberPlace} {d : Draft} (h : d.Plain S) {id : NodeId}
    (hid : id ∈ S.calls) (value : Option Lowered) : d.Proceeds S [id] (d.setResult id value) := by
  have hne (i) (hi : i ∉ [id]) : (d.setResult id value).result? i = d.result? i :=
    Lowering.result?_setResult_ne (List.ne_of_not_mem_cons hi) d value
  refine ⟨⟨fun i hi ↦ ?_, h.qualifier, h.returnVariable, h.isExpanded, h.returnType, h.locals,
    h.declared, h.number, h.unused⟩, hne, fun _ hc ↦ .inl hc⟩
  by_cases heq : i ∈ [id]
  · rwa [List.mem_singleton.1 heq]
  · rw [hne i heq] at hi
    exact h.known i hi

namespace Lowering

/-- A call with arguments without calls, of a method that is expanded. `calls` are the calls of the
member that makes it. -/
structure Expands (l : Lowering) (I : Interpretation V) (calls : List NodeId) (id : NodeId)
    (target : MemberRef) (args : List Expr) (h : MemberHandle) : Prop where
  id : id ∈ calls
  resolves : l.program.tree.resolveCall target = some h
  inlined : l.plan.isInlined h = true
  method : (l.program.tree.method h).IsStraight
  returns : (l.program.tree.method h).Returns I
  uses : ∀ code ∈ (l.program.tree.method h).body,
    code.Uses (Expr.IsSimpleBeside calls) (Expr.IsSimpleBeside calls)
  args : ∀ e ∈ args, e.IsSimpleBeside calls

variable {S : Scope} {calls : List NodeId} {id : NodeId} {target : MemberRef} {args : List Expr}
  {h : MemberHandle}

theorem Expands.prepared (he : l.Expands I calls id target args h) (hM : M.Realizes name z.code)
    (hΓ : Γ.Sees l) (hS : S.Dotless) {d d' : Draft} (ho : d.isClosed = false)
    (hd : d.Plain (S.own calls)) (hlacks : d.result? id = none)
    (hp : l.prepare (l.expand (l.stmt noExpansion)) (.call id target args) d = .ok d') :
    d.Proceeds (S.own calls) [id] d' ∧
    d'.result? id = some ((l.program.tree.method h).scope.result.map
      (.ofVariable (tempName d.temporaries))) ∧
    ∀ source : Store V, x.Carries name z Γ True d d' True
      ((View.beside I S calls).shows · source) fun _ m ↦ (View.beside I S calls).shows m source ∧
        ∃ σ, (l.program.tree.method h).call I S args source = some σ ∧
          ((l.program.tree.method h).scope.result.isSome →
            ∃ u, σ.result = some u ∧ m.values (tempName d.temporaries) = u) := by
  obtain ⟨v, d₁, hexpand, rfl⟩ := prepare_call he.resolves he.inlined
    (fun e hmem ↦ (he.args e hmem).simple) hlacks hp
  obtain ⟨hproceeds, rfl, hcarries⟩ := carries_expand (x := x) hM hΓ hS he.method he.returns he.uses
    he.args ho hd hexpand
  refine ⟨(hproceeds.mono (List.nil_subset _)).trans (.setResult hproceeds.plain he.id _)
    (List.Subset.refl _), result?_setResult_self _ _ _, fun source ↦ ?_⟩
  refine ((hcarries source).seq (.setResult (hcarries source).opened id _) (fun _ h ↦ h)
    (fun _ _ h ↦ h) fun _ _ _ _ ↦ trivial).conseq (fun h ↦ h) (fun _ h ↦ h) (fun m hm ↦ hm.1)
    fun m m' hm ⟨m₁, ⟨hspares, hcall⟩, heq⟩ ↦ ?_
  subst heq
  refine ⟨⟨hm.1.of_spares hS hspares, ?_⟩, hcall⟩
  rw [hspares.driven]
  exact hm.2

theorem Expands.delivered (he : l.Expands I calls id target args h) (hM : M.Realizes name z.code)
    (hΓ : Γ.Sees l) (hS : S.Dotless) :
    Delivered l (l.expand (l.stmt noExpansion)) Γ (View.beside I S calls) x name z
      (.calling I l.program.tree S) (.call id target args) := by
  have hids : (Expr.call id target args).callIds = [id] :=
    Expr.callIds_call fun e hmem ↦ (he.args e hmem).simple
  refine ⟨fun d d' type v hvalue ho hd hlacks ↦ ?_, fun d d' hprepare ho hd hlacks ↦ ?_⟩
  · rw [hids] at hlacks ⊢
    obtain ⟨_, _, _, _, _, heq, -⟩ | ⟨-, d₁, hprepare, hexpr⟩ := value_eq_ok hvalue
    · cases heq
    obtain ⟨hproceeds, hresult, hcarries⟩ :=
      he.prepared (x := x) hM hΓ hS ho hd (hlacks id List.mem_cons_self) hprepare
    rw [expr, Expr.id, hresult] at hexpr
    cases htype : (l.program.tree.method h).scope.result with
    | none =>
      rw [htype] at hexpr
      cases hexpr
    | some source =>
      rw [htype] at hexpr
      obtain ⟨rfl, rfl⟩ := Prod.mk.inj (Except.ok.inj hexpr)
      refine ⟨hproceeds, fun σ ↦ (hcarries σ).conseq (fun h ↦ h) (fun _ h ↦ h) (fun _ h ↦ h) ?_⟩
      rintro m m' - ⟨hshows, σ', hcall, hgives⟩
      obtain ⟨u, hu, hm'⟩ := hgives (by rw [htype]; rfl)
      have hscalar : (l.program.tree.method h).returnType.scalarHardware? = some source := htype
      refine ⟨hshows, (Operand.convert I ⟨u, source, none⟩ type).value, ?_, fun inputs ↦ ?_⟩
      · simp only [Meaning.calling, he.resolves, hcall, hu, hscalar, Option.bind_some, Option.map_some]
      · rw [Lowered.eval_coerce (HwExpr.isScalar_variable _), ← hm']
        rfl
  · rw [hids] at hlacks ⊢
    obtain ⟨hproceeds, hresult, hcarries⟩ :=
      he.prepared (x := x) hM hΓ hS ho hd (hlacks id List.mem_cons_self) hprepare
    refine ⟨hproceeds, fun _ ↦ ?_, fun σ ↦ (hcarries σ).conseq (fun h ↦ h) (fun _ h ↦ h)
      (fun _ h ↦ h) ?_⟩
    · rw [Draft.isEvaluated, Expr.id, hresult]
      rfl
    · rintro m m' - ⟨hshows, σ', hcall, -⟩
      refine ⟨hshows, ?_⟩
      simp only [Meaning.calling, he.resolves, hcall, Option.bind_some, Option.map_some]

end Lowering

section

variable {t : SyntaxTree} {code : Stmt} {e : Expr}

theorem Stmt.callIds_eq_map (s : Stmt) : s.callIds = (s.exprNodes.filter Expr.isCall).map Expr.id := by
  unfold callIds exprNodes Expr.callIds
  simp only [List.filter_flatMap, List.map_flatMap]

theorem Stmt.nodup_callIds (hids : t.ids.Nodup) (hcode : code ∈ t.bodies) : code.callIds.Nodup := by
  rw [callIds_eq_map]
  have hbody : code.exprNodes.Sublist t.exprNodes := ParentIndex.sublist_flatMap hcode
  exact ((List.filter_sublist.trans hbody).map Expr.id).nodup (t.map_id_exprNodes.nodup hids)

theorem Expr.IsSimple.beside (he : e.IsSimple) (hids : t.ids.Nodup) (hcode : code ∈ t.bodies)
    (hsub : e.nodes ⊆ t.exprNodes) : e.IsSimpleBeside code.callIds := by
  refine ⟨he, fun n hn hid ↦ ?_⟩
  rw [Stmt.callIds_eq_map] at hid
  obtain ⟨c, hc, hid⟩ := List.mem_map.1 hid
  obtain ⟨hc, hcall⟩ := List.mem_filter.1 hc
  have hmem : c ∈ t.exprNodes := List.mem_flatMap.2 ⟨code, hcode, hc⟩
  obtain rfl := SyntaxTree.apart_exprNodes hids c hmem n (hsub hn) hid
  have hsimple := he c hn
  cases c with
  | call => exact hsimple.elim
  | _ => exact nomatch hcall

theorem Stmt.Uses.among {values conditions : Expr → Prop} {s : Stmt} (h : s.Uses values conditions) :
    s.Uses (fun e ↦ values e ∧ e.nodes ⊆ s.exprNodes)
      fun e ↦ conditions e ∧ e.nodes ⊆ s.exprNodes := by
  intro u hu
  have hnodes {e : Expr} (he : e ∈ u.exprs) : e.nodes ⊆ s.exprNodes := fun n hn ↦
    List.mem_flatMap.2 ⟨u, hu, List.mem_flatMap.2 ⟨e, he, hn⟩⟩
  have hself := h u hu
  cases u with
  | declare => exact ⟨hself.1, fun e he ↦ ⟨hself.2 e he, hnodes (Option.mem_toList.2 he)⟩⟩
  | assign | eval => exact ⟨hself.1, hself.2, hnodes (by simp [exprs])⟩
  | branch | whileLoop => exact ⟨hself, hnodes (by simp [exprs])⟩
  | forLoop | ret => exact fun e he ↦ ⟨hself e he, hnodes (Option.mem_toList.2 he)⟩
  | block | breakLoop | continueLoop => exact trivial
  | store | parallel => exact hself

end

def Expr.IsExpanded (l : Lowering) (kind : MethodDecl → Prop) : Expr → Prop
  | .call _ target args => (∀ e ∈ args, e.IsSimple) ∧ ∃ h ∈ l.program.tree.resolveCall target,
    l.plan.isInlined h = true ∧ (l.program.tree.method h).IsStraight ∧ kind (l.program.tree.method h)
  | _ => False

/-- A method on scalars whose calls are those of methods that are expanded and of a given kind. Each of
them is all of what a statement assigns, returns or evaluates. -/
structure MethodDecl.IsExpanding (l : Lowering) (kind : MethodDecl → Prop) (m : MethodDecl) : Prop
    extends m.IsScalar where
  body : ∀ s ∈ m.body, s.Uses (fun e ↦ e.IsSimple ∨ e.IsExpanded l kind) Expr.IsSimple
  dotless : ∀ p ∈ m.locals, '.' ∉ p.1.toList

section

variable {kind kind' : MethodDecl → Prop} {m : MethodDecl}

theorem Expr.IsExpanded.imp {e : Expr} (h : e.IsExpanded l kind)
    (himp : ∀ m : MethodDecl, m.IsStraight → kind m → kind' m) : e.IsExpanded l kind' := by
  cases e with
  | call =>
    obtain ⟨hargs, h, hresolves, hinlined, hstraight, hkind⟩ := h
    exact ⟨hargs, h, hresolves, hinlined, hstraight, himp _ hstraight hkind⟩
  | _ => exact h.elim

theorem MethodDecl.IsExpanding.imp (hm : m.IsExpanding l kind)
    (himp : ∀ m : MethodDecl, m.IsStraight → kind m → kind' m) : m.IsExpanding l kind' :=
  ⟨hm.toIsScalar, fun s hs ↦ (hm.body s hs).imp (fun _ he ↦ he.imp_right fun h ↦ h.imp himp)
    fun _ he ↦ he, hm.dotless⟩

instance [DecidablePred kind] : (e : Expr) → Decidable (e.IsExpanded l kind)
  | .call _ _ _ => inferInstanceAs (Decidable (_ ∧ _))
  | .literal _ _ | .getLocal _ _ | .getParameter _ _ | .getField _ _ | .unary _ _ _
  | .binary _ _ _ _ | .newArray _ _ _ | .arrayElement _ _ _ | .arrayLength _ _
  | .conditional _ _ _ _ | .cast _ _ _ => .isFalse id

theorem MethodDecl.isExpanding_iff : (m.IsScalar ∧
    (∀ s ∈ m.body, s.Uses (fun e ↦ e.IsSimple ∨ e.IsExpanded l kind) Expr.IsSimple) ∧
    ∀ p ∈ m.locals, '.' ∉ p.1.toList) ↔ m.IsExpanding l kind :=
  ⟨fun ⟨h, hbody, hdotless⟩ ↦ ⟨h, hbody, hdotless⟩, fun h ↦ ⟨h.toIsScalar, h.body, h.dotless⟩⟩

instance [DecidablePred kind] : Decidable (m.IsExpanding l kind) :=
  decidable_of_iff _ MethodDecl.isExpanding_iff

end

theorem MethodDecl.IsExpanding.exists_type {kind : MethodDecl → Prop} {m : MethodDecl}
    (hm : m.IsExpanding l kind)
    {p : String × TypeRef} (hp : p ∈ m.locals) : ∃ type, m.scope.type? p.1 = some type := by
  rw [scope_type? hm.toIsScalar hp]
  refine Option.isSome_iff_exists.1 ?_
  rcases List.mem_append.1 hp with hp | hp
  · obtain ⟨q, hq, rfl⟩ := List.mem_map.1 hp
    exact hm.parameters q hq
  · obtain ⟨s, hs, hp⟩ := List.mem_flatMap.1 hp
    obtain ⟨t, ht, hp⟩ := List.mem_filterMap.1 hp
    have huses := hm.body s (Option.mem_toList.1 hs) t ht
    cases t with
    | declare =>
      obtain rfl := Option.some.inj hp
      exact huses.1
    | _ => exact nomatch hp

/-- A memory holds the variables and the result of a method as a store does. -/
def MethodDecl.Holds (m : MethodDecl) (memory : Memory V) (σ : Store V) : Prop :=
  (∀ p ∈ m.locals, memory.values p.1 = σ.values p.1) ∧ memory.driven (.own .result) = σ.result

theorem MethodDecl.IsExpanding.holds {kind : MethodDecl → Prop} {m : MethodDecl}
    (hm : m.IsExpanding l kind) {calls : List NodeId}
    {memory : Memory V} {σ : Store V} (h : (View.beside I m.scope calls).shows memory σ) :
    m.Holds memory σ := by
  refine ⟨fun p hp ↦ ?_, h.2⟩
  obtain ⟨type, htype⟩ := hm.exists_type hp
  exact (congrArg memory.values String.empty_append).symm.trans (h.1 p.1 type htype)

theorem Delivered.calling {expand : Expansion} {S : MemberPlace} {W : View I S} {e : Expr}
    (he : e.IsSimpleBeside S.calls) :
    Delivered l expand Γ W x name z (.calling I l.program.tree S.toScope) e := by
  have hsimple : Delivered l expand Γ W x name z (.simple I S.toScope) e := .simple he
  cases e with
  | call => exact (he.simple _ (Expr.mem_nodes_self _)).elim
  | _ => exact ⟨hsimple.delivers, hsimple.performs⟩

namespace Lowering

variable {c : Component}

theorem beside_of_among (hl : l.Planned) {code s : Stmt} (hcode : code ∈ l.program.tree.bodies)
    (hs : s ∈ l.program.tree.bodies) (e : Expr) (he : e.IsSimple ∧ e.nodes ⊆ s.exprNodes) :
    e.IsSimpleBeside code.callIds :=
  he.1.beside hl.distinct.1 hcode
    (List.Subset.trans he.2 (ParentIndex.sublist_flatMap hs).subset)

/-- The expressions of a body have their values, and calls that are expanded have theirs. -/
theorem delivered_expanding (hl : l.Planned) {code : Stmt} (hcode : code ∈ l.program.tree.bodies)
    (hM : M.Realizes name z.code) (hΓ : Γ.Sees l) {S : Scope} (hS : S.Dotless) {e : Expr}
    (he : e.IsSimple ∨ e.IsExpanded l (MethodDecl.Returns I)) (hnodes : e.nodes ⊆ code.exprNodes) :
    Delivered l (l.expand (l.stmt noExpansion)) Γ (View.beside I S code.callIds) x name z
      (.calling I l.program.tree S) e := by
  have hbeside := beside_of_among hl hcode hcode
  rcases he with hsimple | hexpanded
  · exact .calling (hbeside e ⟨hsimple, hnodes⟩)
  · cases e with
    | call id target args =>
      obtain ⟨hargs, h, hresolves, hinlined, hmethod, hreturns⟩ := hexpanded
      refine Expands.delivered ⟨?_, hresolves, hinlined, hmethod, hreturns, fun s hs ↦ ?_,
        fun e he ↦ hbeside e ⟨hargs e he, ?_⟩⟩ hM hΓ hS
      · rw [Stmt.callIds_eq_map]
        exact List.mem_map_of_mem (List.mem_filter.2 ⟨hnodes (Expr.mem_nodes_self _), rfl⟩)
      · have hbody := beside_of_among hl hcode (SyntaxTree.mem_bodies hs)
        exact (hmethod.body s hs).uses.among.imp hbody hbody
      · have hchild : e ∈ (Expr.call id target args).children := he
        exact List.Subset.trans (Expr.nodes_subset_of_mem_children hchild) hnodes
    | _ => exact hexpanded.elim

theorem follows_expanding (hl : l.Planned) (h : l.component = .ok c)
    (hsize : c.states.length ≤ 2 ^ 32)
    (hm : (l.program.tree.method l.member.handle).IsExpanding l (MethodDecl.Returns I))
    (x : Execution I c.machine) (m : Memory V) (hstart : x.config 0 = ⟨1, 0, m⟩) (limit : Nat) :
    match (l.program.tree.method l.member.handle).runIn I
      (.calling I l.program.tree (l.program.tree.method l.member.handle).scope) limit
      (fun p ↦ x.inputs 0 (.own (.parameter p))) m.store with
    | some σ => ∃ t, x.Reaches c.finishedState t ∧
        (l.program.tree.method l.member.handle).Holds (x.config t).memory σ
    | none => ∀ t < limit, (x.config t).state ≠ c.finishedState := by
  obtain ⟨code, -, hcode, -⟩ := component_eq h
  have hmem := SyntaxTree.mem_bodies hcode
  have hS := MethodDecl.dotless_scope hm.dotless
  have hfollows := follows_runIn h hsize hm.toIsScalar (W := View.beside I _ code.callIds)
    (fun m ↦ ⟨fun _ _ _ ↦ congrArg m.values String.empty_append, rfl⟩)
    (fun e ↦ (e.IsSimple ∨ e.IsExpanded l (MethodDecl.Returns I)) ∧ e.nodes ⊆ code.exprNodes)
    x m hstart limit
    (fun code' hcode' ↦ by
      obtain rfl := Option.some.inj (hcode.symm.trans hcode')
      exact ⟨(hm.body code hcode).among.imp (fun _ he ↦ he) (beside_of_among hl hmem hmem),
        MethodDecl.types_scope hm.toIsScalar hcode, fun _ _ _ ↦ trivial,
        fun _ ↦ hl.callsGrouped _ (mem_handles_of_body hcode) code hcode,
        Stmt.nodup_callIds hl.distinct.1 hmem⟩)
    fun z hΓ hM e he ↦ delivered_expanding hl hmem hM hΓ hS he.1 he.2
  generalize MethodDecl.runIn I _ limit _ _ _ = ending at hfollows ⊢
  cases ending with
  | none => exact hfollows
  | some σ =>
    obtain ⟨t, hreaches, hshows⟩ := hfollows
    exact ⟨t, hreaches, hm.holds hshows⟩

/-- The machine of a component whose method calls methods that are expanded reaches its last state
exactly if the method ends, and then with the same variables and the same result. -/
theorem reaches_finished_expanding (hl : l.Planned) (h : l.component = .ok c)
    (hsize : c.states.length ≤ 2 ^ 32)
    (hm : (l.program.tree.method l.member.handle).IsExpanding l (MethodDecl.Returns I))
    (x : Execution I c.machine) (m : Memory V) (hstart : x.config 0 = ⟨1, 0, m⟩) :
    let method := l.program.tree.method l.member.handle
    let ends := method.EndsIn I (.calling I l.program.tree method.scope)
      (fun p ↦ x.inputs 0 (.own (.parameter p))) m.store
    ((∃ σ, ends σ) ↔ ∃ t, x.Reaches c.finishedState t) ∧
      ∀ σ t, ends σ → x.Reaches c.finishedState t → method.Holds (x.config t).memory σ := by
  intro method ends
  have hends {σ : Store V} (hσ : ends σ) :
      ∃ t, x.Reaches c.finishedState t ∧ method.Holds (x.config t).memory σ := by
    obtain ⟨limit, hrun⟩ := hσ
    have hfollows := follows_expanding hl h hsize hm x m hstart limit
    rwa [hrun] at hfollows
  refine ⟨⟨fun ⟨σ, hσ⟩ ↦ ?_, fun ⟨t, hreaches⟩ ↦ ?_⟩, fun σ t hσ hreaches ↦ ?_⟩
  · obtain ⟨t, hreaches, -⟩ := hends hσ
    exact ⟨t, hreaches⟩
  · have hfollows := follows_expanding hl h hsize hm x m hstart (t + 1)
    split at hfollows
    next σ hrun => exact ⟨σ, t + 1, hrun⟩
    next => exact absurd hreaches.1 (hfollows t (Nat.lt_succ_self t))
  · obtain ⟨t', hreaches', hholds⟩ := hends hσ
    rwa [hreaches.unique hreaches']

end Lowering

def settling : List TypeDecl :=
  let number : TypeRef := .int 8 true
  let constant (n : Int64) : Expr := .literal 0 (.int n 8 true)
  let lower (e : Expr) : Expr := .call 0 ⟨"T", "Lower", [number]⟩ [e]
  let x : Expr := .getParameter 0 "x"
  let last : Expr := .getLocal 0 "last"
  let y : Expr := .getParameter 0 "y"
  let z : Expr := .getLocal 0 "z"
  [{ fullName := "T"
     methods :=
      [{ name := "Settle", parameters := [⟨"x", number⟩], returnType := number
         body := some (.block 0
          [.declare 0 "last" number (some (lower x)),
           .whileLoop 0 (.binary 0 .gt last (constant 0)) (.block 0
            [.assign 0 (.toParameter "x") (lower last),
             .eval 0 (lower x),
             .assign 0 (.toLocal "last") (.binary 0 .sub x (constant 1))]),
           .ret 0 (some (lower last))]) },
       { name := "Lower", parameters := [⟨"y", number⟩], returnType := number
         modifiers := { inlineHint := true }
         body := some (.block 0
          [.branch 0 (.binary 0 .gt y (constant 5)) (.ret 0 (some (constant 5))) none,
           .declare 0 "z" number (some (.binary 0 .sub y (constant 1))),
           .branch 0 (.binary 0 .eq z (constant 2)) (.ret 0 (some (constant 0)))
            (some (.ret 0 (some z)))]) }] }]

def settler : Synthesis Lowering :=
  Lowering.ofTypes settling { device := "Zynq-7020" } [⟨0, 0⟩] "T.Settle(i8)"

/-- From every value of its parameter the machine of `settler` ends exactly as the method does; from
nine it does, with minus two. -/
theorem reaches_finished_settler : ∃ (l : Lowering) (c : Component), l.Planned ∧
    l.component = .ok c ∧ c.states.length = 30 ∧
    let method := l.program.tree.method l.member.handle
    let ends (n : Int) (m : Memory Int) := method.EndsIn .counting
      (.calling .counting l.program.tree method.scope) (fun _ ↦ n) m.store
    let run (n : Int) (m : Memory Int) := Execution.steady .counting c.machine (fun _ ↦ n) ⟨1, 0, m⟩
    method.IsExpanding l (MethodDecl.Returns .counting) ∧
    (∀ n m, ((∃ σ, ends n m σ) ↔ ∃ t, (run n m).Reaches c.finishedState t) ∧
      ∀ σ t, ends n m σ → (run n m).Reaches c.finishedState t →
        method.Holds ((run n m).config t).memory σ) ∧
    ∃ σ, ends 9 ⟨fun _ ↦ 0, fun _ ↦ none, []⟩ σ ∧ σ.result = some (-2) := by
  have hsize : (SyntaxTree.ofTypes settling).ids.length ≤ 2 ^ 32 := by decide +kernel
  let m₀ : Memory Int := ⟨fun _ ↦ 0, fun _ ↦ none, []⟩
  let run (l : Lowering) : Option (Store Int) :=
    let method := l.program.tree.method l.member.handle
    method.runIn .counting (.calling .counting l.program.tree method.scope) 10 (fun _ ↦ 9) m₀.store
  have hcheck : Synthesis.check (settler >>= fun l ↦ l.component >>= fun c ↦ .ok (l, c))
      (fun r ↦ r.2.states.length = 30 ∧
        (r.1.program.tree.method r.1.member.handle).IsExpanding r.1 MethodDecl.AlwaysReturns ∧
        ((run r.1).bind Store.result) = some (-2)) = true := by decide +kernel
  obtain ⟨⟨l, c⟩, hr, hcheck⟩ := Synthesis.check_eq_true.1 hcheck
  obtain ⟨l, hl, hr⟩ := Synthesis.bind_eq_ok.1 hr
  obtain ⟨c, hc, hr⟩ := Synthesis.bind_eq_ok.1 hr
  obtain ⟨rfl, rfl⟩ := Prod.mk.inj (Except.ok.inj hr)
  obtain ⟨hlength, hexpanding, hrun⟩ := of_decide_eq_true hcheck
  have hlength : c.states.length = 30 := hlength
  have hl := Lowering.planned_ofTypes hsize hl
  have hm : (l.program.tree.method l.member.handle).IsExpanding l (MethodDecl.Returns .counting) :=
    hexpanding.imp fun _ hstraight h ↦ hstraight.returns .counting h
  obtain ⟨σ, hσ, hresult⟩ := Option.bind_eq_some_iff.1 hrun
  exact ⟨l, c, hl, hc, hlength, hm,
    fun n m ↦ Lowering.reaches_finished_expanding hl hc (by omega) hm
      (Execution.steady .counting c.machine (fun _ ↦ n) ⟨1, 0, m⟩) m rfl,
    σ, ⟨10, hσ⟩, hresult⟩

end Fabric
