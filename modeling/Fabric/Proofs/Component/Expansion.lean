import Fabric.Proofs.Component.Naming
import Fabric.Proofs.Construction.Carry
import Fabric.Proofs.Source.Calls

namespace Fabric

theorem isQualified_callPrefix (callee : String) (k : Nat) (x : String) :
    IsQualified (callPrefix callee k ++ x) := by
  unfold IsQualified
  rw [toList_callPrefix, List.count_append, List.count_cons_self, List.count_append,
    List.count_cons_self]
  omega

theorem dot_mem_of_isQualified {x : String} (h : IsQualified x) : '.' ∈ x.toList :=
  List.count_pos_iff.1 (Nat.lt_of_lt_of_le Nat.zero_lt_two h)

theorem dot_mem_tempName (k : Nat) : '.' ∈ (tempName k).toList := by
  rw [toList_tempName]
  simp

theorem tempName_ne_callPrefix (n : Nat) (callee : String) (k : Nat) (x : String) :
    tempName n ≠ callPrefix callee k ++ x :=
  fun h ↦ not_isQualified_tempName n (h ▸ isQualified_callPrefix callee k x)

section

variable {V : Type}

structure Memory.Spares (m m' : Memory V) : Prop where
  values : ∀ x, '.' ∉ x.toList → m'.values x = m.values x
  driven : m'.driven = m.driven

namespace Memory.Spares

variable {m m' m'' : Memory V}

theorem refl (m : Memory V) : m.Spares m := ⟨fun _ _ ↦ rfl, rfl⟩

theorem trans (h : m.Spares m') (h' : m'.Spares m'') : m.Spares m'' :=
  ⟨fun x hx ↦ (h'.values x hx).trans (h.values x hx), h'.driven.trans h.driven⟩

theorem setVariable (m : Memory V) {name : String} (hname : '.' ∈ name.toList) (v : V) :
    m.Spares (m.setVariable name v) := by
  refine ⟨fun x hx ↦ if_neg ?_, rfl⟩
  rintro rfl
  exact hx hname

end Memory.Spares

end

structure MemberPlace.IsCall (S : MemberPlace) : Prop where
  dotless : S.Dotless
  qualifier : ∃ callee k, S.qualifier = callPrefix callee k
  temporary : ∀ name ∈ S.returnVariable, ∃ n, name = tempName n
  value : S.result.isSome → S.returnVariable.isSome

theorem MemberPlace.IsCall.ne_returnVariable {S : MemberPlace} (hS : S.IsCall) {name : String}
    (hname : name ∈ S.returnVariable) (x : String) : name ≠ S.qualifier ++ x := by
  obtain ⟨n, rfl⟩ := hS.temporary name hname
  obtain ⟨callee, k, hq⟩ := hS.qualifier
  rw [hq]
  exact tempName_ne_callPrefix n callee k x

theorem MemberPlace.IsCall.dot_mem {S : MemberPlace} (hS : S.IsCall) (x : String) :
    '.' ∈ (S.qualifier ++ x).toList := by
  obtain ⟨callee, k, hq⟩ := hS.qualifier
  rw [hq]
  exact dot_mem_of_isQualified (isQualified_callPrefix callee k x)

variable {V : Type} {I : Interpretation V}

structure MemberPlace.Shows (S : MemberPlace) (m₀ m : Memory V) (σ : Store V) : Prop where
  sees : S.Sees m.values σ.values
  result : ∀ v ∈ σ.result, ∀ name ∈ S.returnVariable, m.values name = v
  spares : m₀.Spares m

def View.call (I : Interpretation V) {S : MemberPlace} (hS : S.IsCall) (m₀ : Memory V) :
    View I S where
  shows := S.Shows m₀
  sees h := h.sees
  set {m σ x type} v h ht := by
    refine ⟨fun y typey hy ↦ ?_, fun w hw name hname ↦ ?_,
      h.spares.trans (.setVariable m (hS.dot_mem x) v)⟩
    · by_cases heq : y = x
      · subst heq
        exact (if_pos rfl).trans (if_pos rfl).symm
      · have hne : S.qualifier ++ y ≠ S.qualifier ++ x :=
          fun h ↦ heq ((String.append_right_inj _).1 h)
        exact (if_neg hne).trans ((h.sees y typey hy).trans (if_neg heq).symm)
    · exact (if_neg (hS.ne_returnVariable hname x)).trans (h.result w hw name hname)
  give {m σ type} inputs e hresult h := by
    obtain ⟨name, hname⟩ := Option.isSome_iff_exists.1 (hS.value (by simp [hresult]))
    have hexec : HwStmt.exec I inputs (.assign S.target e) m =
        m.setVariable name (e.eval I inputs m.values) := by
      unfold MemberPlace.target
      rw [hname]
      rfl
    obtain ⟨n, hn⟩ := hS.temporary name hname
    rw [hexec]
    refine ⟨fun y typey hy ↦ ?_, fun w hw name' hname' ↦ ?_,
      h.spares.trans (.setVariable m (hn ▸ dot_mem_tempName n) _)⟩
    · exact (if_neg (hS.ne_returnVariable hname y).symm).trans (h.sees y typey hy)
    · obtain rfl := Option.some.inj (hname.symm.trans hname')
      exact (if_pos rfl).trans (Option.some.inj hw)

namespace Draft

theorem bind_advance (d : Draft) (label name : String) (b : Binding) :
    (d.bind name b).advance label = (d.advance label).bind name b := by
  obtain ⟨states, current, budget, isClosed⟩ := d
  cases isClosed <;> rfl

theorem bind_emit (d : Draft) (s : HwStmt) (cost : Binary64) (name : String) (b : Binding) :
    (d.bind name b).emit s cost = (d.emit s cost).bind name b := by
  have hfresh : (d.bind name b).isFresh = d.isFresh := rfl
  have hbudget : (d.bind name b).budget = d.budget := rfl
  unfold emit reserve
  rw [hfresh, hbudget, bind_advance]
  split
  · cases d.isFresh <;> rfl
  · split <;> rfl

theorem bindArguments_cons (d : Draft) (callee : String) (a : Argument) (rest : List Argument) :
    d.bindArguments callee (a :: rest) =
      ((d.declareLocal a.name a.type ("parameter " ++ a.name ++ " of " ++ callee)).emit
        (.setVariable (d.declare a.name a.type ("parameter " ++ a.name ++ " of " ++ callee)).1
          (a.value.coerce a.type)) a.value.cost).bindArguments callee rest := by
  unfold declareLocal
  rw [bind_emit]
  rfl

end Draft

namespace Lowering

variable {l : Lowering} {d d' : Draft} {S : MemberPlace}

/-- What the arguments of a call are lowered to have their values in the types of the parameters. -/
theorem evalArguments_simple (hd : d.Plain S) {callee : String} {params : List (Parameter × Expr)}
    (hs : ∀ p ∈ params, p.1.type.scalarHardware?.isSome ∧ p.2.IsSimpleBeside S.calls)
    (hn : (params.map fun p ↦ p.1.name).Nodup) {arguments : List Argument}
    (h : l.evalArguments callee params d = .ok (arguments, d')) :
    d' = d ∧ (arguments.map fun a ↦ a.name) = (params.map fun p ↦ p.1.name) ∧
    (∀ a ∈ arguments, ∃ p ∈ params, p.1.name = a.name ∧ p.1.type.scalarHardware? = some a.type) ∧
    ∀ values (source : String → V), S.Sees values source →
      ∃ f, Expr.denoteArguments I S.toScope source params = some f ∧
        ∀ a ∈ arguments, ∀ inputs values', S.Sees values' source →
          (a.value.coerce a.type).eval I inputs values' = f a.name := by
  induction params generalizing arguments with
  | nil =>
    obtain ⟨rfl, rfl⟩ := Prod.mk.inj (Except.ok.inj h)
    exact ⟨rfl, rfl, nofun, fun _ _ _ ↦ ⟨_, rfl, nofun⟩⟩
  | cons param rest ih =>
    obtain ⟨p, e⟩ := param
    obtain ⟨⟨hscalar, he⟩, hrest⟩ := List.forall_mem_cons.1 hs
    obtain ⟨hp, hn⟩ := List.nodup_cons.1 hn
    change p.name ∉ rest.map fun q ↦ q.1.name at hp
    obtain ⟨type, v, d₁, others, htype, hv, hothers, rfl⟩ := evalArguments_eq_ok h
    obtain ⟨rfl, hvscalar, hdenote⟩ := expr_simple (I := I) hd he hv
    obtain ⟨rfl, hnames, htypes, hvalues⟩ := ih hrest hn hothers
    have htype := TypeRef.hardware_scalar htype hscalar
    refine ⟨rfl, congrArg (p.name :: ·) hnames, fun a ha ↦ ?_, fun values source hsees ↦ ?_⟩
    · rcases List.mem_cons.1 ha with rfl | ha
      · exact ⟨_, List.mem_cons_self, rfl, htype⟩
      · obtain ⟨q, hq, hname⟩ := htypes a ha
        exact ⟨q, List.mem_cons_of_mem _ hq, hname⟩
    · have hvalue (inputs) (values' : String → V) (hsees' : S.Sees values' source) :
          e.denoteAs I S.toScope type source = some ((v.coerce type).eval I inputs values') := by
        rw [Expr.denoteAs, hdenote inputs values' source hsees', Option.map_some,
          Lowered.eval_coerce hvscalar]
      obtain ⟨f, hf, hrest⟩ := hvalues values source hsees
      let u := (v.coerce type).eval I (fun _ ↦ I.bool false) values
      refine ⟨fun x ↦ if x = p.name then u else f x, ?_, fun a ha inputs values' hsees' ↦ ?_⟩
      · rw [Expr.denoteArguments, htype, Option.bind_some, hvalue (fun _ ↦ I.bool false) values hsees,
          Option.bind_some, hf, Option.map_some]
      · rcases List.mem_cons.1 ha with rfl | ha
        · refine Eq.trans ?_ (if_pos rfl).symm
          exact Option.some.inj ((hvalue inputs values' hsees').symm.trans
            (hvalue (fun _ ↦ I.bool false) values hsees))
        · have hne : a.name ≠ p.name := by
            have hmem : a.name ∈ rest.map fun p ↦ p.1.name := hnames ▸ List.mem_map_of_mem ha
            exact fun heq ↦ hp (heq ▸ hmem)
          exact (hrest a ha inputs values' hsees').trans (if_neg hne).symm

end Lowering

theorem Draft.Proceeds.bindArguments {S : MemberPlace} {d : Draft} (hd : d.Plain S) (callee : String)
    {arguments : List Argument} (htypes : ∀ a ∈ arguments, S.type? a.name = some a.type) :
    d.Proceeds S [] (d.bindArguments callee arguments) := by
  induction arguments generalizing d with
  | nil => exact .refl hd
  | cons a rest ih =>
    obtain ⟨htype, htypes⟩ := List.forall_mem_cons.1 htypes
    obtain ⟨-, hproceeds⟩ := hd.declare htype ("parameter " ++ a.name ++ " of " ++ callee)
    rw [Draft.bindArguments_cons]
    have hemit := hproceeds.trans (.of_sameScope hproceeds.plain (Draft.sameScope_emit _
      (.setVariable (d.declare a.name a.type ("parameter " ++ a.name ++ " of " ++ callee)).1
        (a.value.coerce a.type)) a.value.cost)) (List.Subset.refl [])
    exact hemit.trans (ih hemit.plain htypes) (List.Subset.refl [])

namespace Execution.Carries

variable {ι : Type} {M : Machine ι} {x : Execution I M} {name : DraftTarget → ι} {z : Draft}
  {Γ : Interface} {S : MemberPlace} {d : Draft} {m₀ : Memory V} {f : String → V}

theorem bindArguments (hM : M.Realizes name z.code) (hS : S.IsCall) (callee : String)
    {arguments : List Argument} (ho : d.isClosed = false) (hd : d.Plain S)
    (hn : (arguments.map fun a ↦ a.name).Nodup)
    (htypes : ∀ a ∈ arguments, S.type? a.name = some a.type)
    (hvalues : ∀ a ∈ arguments, ∀ inputs m, m₀.Spares m →
      (a.value.coerce a.type).eval I inputs m.values = f a.name) :
    x.Carries name z Γ (∀ a ∈ arguments, a.value.Typed Γ) d (d.bindArguments callee arguments) True
      m₀.Spares fun m m' ↦ m₀.Spares m' ∧
        (∀ a ∈ arguments, m'.values (S.qualifier ++ a.name) = f a.name) ∧
        ∀ y, (∀ a ∈ arguments, a.name ≠ y) →
          m'.values (S.qualifier ++ y) = m.values (S.qualifier ++ y) := by
  induction arguments generalizing d with
  | nil =>
    refine (Carries.refl ho fun _ ↦ trivial).conseq id (fun _ h ↦ h) (fun _ _ ↦ trivial) ?_
    rintro m _ hm rfl
    exact ⟨hm, nofun, fun _ _ ↦ rfl⟩
  | cons a rest ih =>
    obtain ⟨ha, hn⟩ := List.nodup_cons.1 hn
    obtain ⟨htype, htypes⟩ := List.forall_mem_cons.1 htypes
    obtain ⟨hvalue, hvalues⟩ := List.forall_mem_cons.1 hvalues
    let d₁ := d.declareLocal a.name a.type ("parameter " ++ a.name ++ " of " ++ callee)
    let set := HwStmt.setVariable (S.qualifier ++ a.name) (a.value.coerce a.type)
    obtain ⟨hname, -⟩ := hd.declare htype ("parameter " ++ a.name ++ " of " ++ callee)
    have hone : d.bindArguments callee [a] = d₁.emit set a.value.cost := by
      rw [Draft.bindArguments_cons, hname]
      rfl
    have hall : d.bindArguments callee (a :: rest) =
        (d.bindArguments callee [a]).bindArguments callee rest := by
      rw [hone, Draft.bindArguments_cons, hname]
    have hreaches := Draft.reaches_bindArguments (Γ := Γ) callee [a] ho
    have hplain : (d.bindArguments callee [a]).Plain S :=
      (Draft.Proceeds.bindArguments hd callee (List.forall_mem_singleton.2 htype)).plain
    have hfirst : x.Carries name z Γ (∀ b ∈ a :: rest, b.value.Typed Γ) d
        (d.bindArguments callee [a]) True m₀.Spares
        fun m m' ↦ m' = m.setVariable (S.qualifier ++ a.name) (f a.name) := by
      refine ⟨hreaches.conseq (fun h b hb ↦ h b (List.mem_singleton.1 hb ▸ List.mem_cons_self))
        fun _ h ↦ h, fun _ L t m hd hc hz hs hm ↦ ?_⟩
      rw [hone] at hz ⊢
      have hvalid : d₁.Valid (d₁.looseExits + L) := by
        obtain ⟨E, hg⟩ := hd.valid
        exact ⟨E, by rwa [Draft.site_declareLocal, Draft.looseExits_declareLocal]⟩
      obtain ⟨t', hworks, hs'⟩ := (hs.of_site Draft.site_declareLocal).emit hM hvalid hz
      refine ⟨t', _, hworks, hs', ?_⟩
      rw [← hvalue (x.inputs t') m hm]
      rfl
    rw [hall]
    refine (hfirst.seq (ih hreaches.opened hplain hn htypes hvalues)
      (fun h _ b hb ↦ h b (List.mem_cons_of_mem _ hb)) (fun _ _ h ↦ h) ?_).conseq id
        (fun _ h ↦ h) (fun _ h ↦ h) ?_
    · rintro m _ hm rfl
      exact hm.trans (.setVariable m (hS.dot_mem a.name) _)
    · rintro m m'' hm ⟨m', rfl, hspares, hset, hkeep⟩
      refine ⟨hspares, List.forall_mem_cons.2 ⟨?_, hset⟩, fun y hy ↦ ?_⟩
      · refine (hkeep a.name fun b hb heq ↦ ha ?_).trans (if_pos rfl)
        exact List.mem_map.2 ⟨b, hb, heq⟩
      · obtain ⟨hne, hy⟩ := List.forall_mem_cons.1 hy
        exact (hkeep y hy).trans (if_neg fun heq ↦ hne ((String.append_right_inj _).1 heq).symm)

end Execution.Carries

namespace Draft

variable {d z : Draft} {callee : String} {outer : Frame} {L : Multiset Nat} {i : Nat}

theorem mem_callExits : i ∈ d.callExits ↔ i ∈ d.frame.returns ∨ d.isClosed = false ∧ i = d.current := by
  rw [callExits, List.mem_append, Option.mem_toList, exit?_eq_some]

/-- The loose states when a call is left are those of the loops and of the frame around it. -/
theorem looseExits_leaveCall (d : Draft) (callee : String) (outer : Frame) :
    (d.leaveCall callee outer).looseExits + ↑d.frame.returns =
    d.looseExits + ↑outer.returns := by
  rw [(d.sameScope_leaveCall callee outer).looseExits]
  unfold looseExits
  abel

theorem code_leaveCall (callee : String) (outer : Frame) {b : Block} (hb : d.code[i]? = some b) :
    (d.leaveCall callee outer).code[i]? = some (if i ∈ d.callExits then
      { b with transition :=
        if d.callExits = [d.current] then .goto .finished else .goto (.state d.nextState) }
      else b) := by
  have hlt := (List.getElem?_eq_some_iff.1 hb).1
  rw [leaveCall_eq]
  split
  next hexits =>
    have hcode : ({ { d with frame := outer }.setTransition d.current (.goto .finished) with
        isClosed := false } : Draft).code = d.code.redirect d.current (.goto .finished) :=
      ({ d with frame := outer } : Draft).code_setTransition _ _
    rw [hcode, hexits]
    rcases eq_or_ne d.current i with rfl | hne
    · rw [Code.getElem?_redirect_eq, hb, if_pos (List.mem_singleton_self _)]
      rfl
    · rw [Code.getElem?_redirect_ne _ _ hne, hb, if_neg]
      simpa using hne.symm
  next hexits =>
    have hcode : ({ d with frame := outer } : Draft).code = d.code := rfl
    rw [code_enter, code_linkAll, Code.getElem?_redirectAll, code_addState, hcode,
      List.getElem?_append_left hlt, hb]
    rfl

/-- What is settled in the body of an expanded call stays as it is when the call is left. -/
theorem KeptIn.of_leaveCall (h : (d.leaveCall callee outer).KeptIn L z) :
    d.KeptIn (↑outer.returns + L) z := by
  intro i hi ⟨hmem, hne⟩
  have hexits := d.looseExits_leaveCall callee outer
  have hnot : i ∉ d.callExits := by
    rw [mem_callExits]
    rintro (hreturns | ⟨hopen, rfl⟩)
    · exact hmem (Multiset.mem_add.2 (.inl (Multiset.mem_add.2 (.inr hreturns))))
    · exact hne hopen rfl
  have hi' : i < d.code.length := by rwa [d.length_code]
  have hcode := d.code_leaveCall callee outer (List.getElem?_eq_getElem hi')
  rw [if_neg hnot, ← List.getElem?_eq_getElem hi'] at hcode
  rw [← hcode]
  have hlt := (List.getElem?_eq_some_iff.1 (hcode.trans (List.getElem?_eq_getElem hi'))).1
  rw [length_code] at hlt
  refine h i hlt ⟨fun hloose ↦ hmem ?_, fun _ ↦ ?_⟩
  · rw [← add_assoc, ← hexits]
    exact (Multiset.mem_add.1 hloose).elim
      (fun h ↦ Multiset.mem_add.2 (.inl (Multiset.mem_add.2 (.inl h))))
      fun h ↦ Multiset.mem_add.2 (.inr h)
  · rw [leaveCall_eq]
    split
    next hone =>
      rintro rfl
      refine hnot ?_
      rw [hone]
      exact List.mem_singleton_self _
    next => exact Nat.ne_of_lt hi

end Draft

theorem Execution.Ran.leaveCall {ι : Type} {M : Machine ι} {x : Execution I M}
    {name : DraftTarget → ι} {Γ : Interface} {d z : Draft} {L : Multiset Nat} {t i : Nat}
    {m : Memory V} {callee : String} {outer : Frame} (hM : M.Realizes name z.code)
    (h : x.Ran name t d.code i m) (hi : i ∈ d.callExits)
    (hd : d.Proper Γ (↑outer.returns + L)) (hz : (d.leaveCall callee outer).KeptIn L z) :
    ∃ t', x.Works name t t' ∧ x.Stands name t' (d.leaveCall callee outer) m := by
  obtain ⟨b, hb, hat⟩ := h
  have hlt := (List.getElem?_eq_some_iff.1 hb).1
  rw [d.length_code] at hlt
  have hopen := d.isClosed_leaveCall callee outer
  have hcode := d.code_leaveCall callee outer hb
  rw [if_pos hi] at hcode
  by_cases hexits : d.callExits = [d.current]
  · rw [hexits] at hi
    obtain rfl := List.mem_singleton.1 hi
    have hcurrent : (d.leaveCall callee outer).current = d.current := by
      rw [Draft.leaveCall_eq, if_pos hexits]
      rfl
    exact ⟨t, .refl t, hopen, hcurrent.symm ▸ ⟨_, hcode, hat⟩⟩
  · have hcurrent : (d.leaveCall callee outer).current = d.nextState := by
      rw [Draft.leaveCall_eq, if_neg hexits]
      rfl
    have hsettled : (d.leaveCall callee outer).Settled
        ((d.leaveCall callee outer).looseExits + L) i := by
      refine ⟨notMem_of_nodup_add ?_ (Multiset.mem_coe.2 hi), fun _ ↦ ?_⟩
      · have heq : (↑d.callExits + ((d.leaveCall callee outer).looseExits + L) : Multiset Nat) =
            ↑d.exit?.toList + (d.looseExits + (↑outer.returns + L)) := by
          rw [← add_assoc d.looseExits, ← d.looseExits_leaveCall callee outer,
            Draft.callExits, ← Multiset.coe_add]
          abel
        rw [heq]
        exact hd.nodup
      · rw [hcurrent]
        exact Nat.ne_of_lt hlt
    rw [if_neg hexits] at hcode
    obtain ⟨t', -, hworks, henters⟩ :=
      Execution.Ran.leaves_settled hM ⟨_, hcode, hat⟩ hsettled hz hcode
    have hnew := Code.getElem?_redirectAll d.callExits d.nextState d.nextState
      (d.code ++ [Block.fresh d.code.length])
    have hfresh : (d.code ++ [Block.fresh d.code.length])[d.nextState]? =
        some (.fresh d.code.length) := by
      rw [← d.length_code]
      simp
    rw [hfresh, Option.map_some] at hnew
    have hbody : (d.leaveCall callee outer).code =
        (d.code ++ [Block.fresh d.code.length]).redirectAll d.callExits d.nextState := by
      rw [Draft.leaveCall_eq, if_neg hexits, Draft.code_enter, Draft.code_linkAll,
        Draft.code_addState]
      rfl
    rw [← hbody] at hnew
    refine ⟨t', hworks, Execution.Enters.stands ?_ hopen (hcurrent.symm ▸ hnew) ?_⟩
    · rw [hcurrent]
      exact henters
    · split <;> rfl

namespace MethodDecl

theorem values_setParameters (parameters : List Parameter) (f : String → V) (σ : Store V)
    (x : String) : (parameters.foldl (fun σ p ↦ σ.set p.name (f p.name)) σ).values x =
      if x ∈ parameters.map Parameter.name then f x else σ.values x := by
  induction parameters generalizing σ with
  | nil => rfl
  | cons p rest ih =>
    rw [List.foldl_cons, ih, List.map_cons]
    by_cases hrest : x ∈ rest.map Parameter.name
    · rw [if_pos hrest, if_pos (List.mem_cons_of_mem _ hrest)]
    · rw [if_neg hrest]
      by_cases hx : x = p.name
      · subst hx
        rw [if_pos List.mem_cons_self]
        exact if_pos rfl
      · rw [if_neg (by simp [hx, hrest])]
        exact if_neg hx

theorem result_setParameters (parameters : List Parameter) (f : String → V) (σ : Store V) :
    (parameters.foldl (fun σ p ↦ σ.set p.name (f p.name)) σ).result = σ.result := by
  induction parameters generalizing σ with
  | nil => rfl
  | cons p rest ih => exact ih _

theorem dotless_scope {m : MethodDecl} (h : ∀ p ∈ m.locals, '.' ∉ p.1.toList) :
    m.scope.Dotless := by
  intro x type hx
  obtain ⟨t, ht, -⟩ := Option.bind_eq_some_iff.1 hx
  exact h (x, t) (mem_of_lookup ht)

theorem IsStraight.dotless_scope {m : MethodDecl} (hm : m.IsStraight) : m.scope.Dotless :=
  MethodDecl.dotless_scope hm.dotless

end MethodDecl

def MethodDecl.callPlace (m : MethodDecl) (number : Nat) (value : Option String)
    (calls : List NodeId) : MemberPlace :=
  ⟨m.scope, callPrefix (String.ofList (simpleName m.name.toList)) number, value, true, calls⟩

namespace Lowering

variable {l : Lowering} {Γ : Interface} {d d' : Draft} {S : Scope} {calls : List NodeId}

theorem resultVariable_spec (callee : String) (returnType : Option HwType) (d : Draft) :
    let x := resultVariable callee returnType d
    x.1 = returnType.map (fun type ↦ (tempName d.temporaries, type)) ∧ x.2.frame = d.frame ∧
      x.2.results = d.results ∧ x.2.expansions = d.expansions ∧ x.2.loops = d.loops ∧
      (∀ L R E, x.2.site L R E = d.site L R E) ∧
      ∀ c ∈ x.2.declarations, c ∈ d.declarations ∨ c.name = tempName d.temporaries := by
  cases returnType with
  | none => exact ⟨rfl, rfl, rfl, rfl, rfl, fun _ _ _ ↦ rfl, fun _ ↦ .inl⟩
  | some type =>
    refine ⟨rfl, rfl, rfl, rfl, rfl, fun _ _ _ ↦ rfl, fun c hc ↦ ?_⟩
    rcases List.mem_append.1 hc with hc | hc
    · exact .inl hc
    · obtain rfl := List.mem_singleton.1 hc
      exact .inr rfl

theorem isCall_callPlace {m : MethodDecl} (hm : m.IsStraight) (k n : Nat) :
    (m.callPlace k (m.scope.result.map fun _ ↦ tempName n) calls).IsCall where
  dotless := hm.dotless_scope
  qualifier := ⟨_, k, rfl⟩
  temporary name hname := by
    obtain ⟨_, -, rfl⟩ := Option.map_eq_some_iff.1 hname
    exact ⟨n, rfl⟩
  value h := by simpa [MethodDecl.callPlace] using h

theorem plain_enterCall (hS : S.Dotless) (hd : d.Plain (S.own calls)) {m : MethodDecl}
    (hm : m.IsStraight) (callee : String) :
    ((resultVariable callee m.scope.result d).2.enterCall callee
      (String.ofList (simpleName m.name.toList)) m.scope.result
      ((resultVariable callee m.scope.result d).1.map Prod.fst)).Plain
      (m.callPlace (d.expansions + 1) (m.scope.result.map fun _ ↦ tempName d.temporaries) calls) := by
  obtain ⟨hvalue, hframe, hresults, hexpansions, -, -, hdeclared⟩ :=
    resultVariable_spec callee m.scope.result d
  have hnumber : (resultVariable callee m.scope.result d).2.expansions + 1 = d.expansions + 1 :=
    congrArg (· + 1) hexpansions
  have hname {c : Declaration} (hc : c ∈ (resultVariable callee m.scope.result d).2.declarations)
      {f x : String} {k : Nat} (hk : d.expansions < k) (hx : '.' ∉ x.toList) :
      c.name ≠ callPrefix f k ++ x := by
    rcases hdeclared c hc with hc | hc
    · exact hd.unused hS c hc f k x hk hx
    · rw [hc]
      exact tempName_ne_callPrefix _ f k x
  refine ⟨fun id hid ↦ hd.known id ?_, ?_, ?_, rfl, rfl, nofun, fun c hc x type hx ht ↦ ?_,
    .inr ⟨_, _, hnumber.ge, rfl⟩, fun _ c hc f k x hk hx ↦ ?_⟩
  · unfold Draft.result? at hid ⊢
    rwa [← hresults]
  · exact congrArg (callPrefix _) hnumber
  · exact (congrArg (Option.map Prod.fst) hvalue).trans (Option.map_map _ _ _)
  · exact absurd hx (hname hc (Nat.lt_succ_self _) (hm.dotless_scope x type ht))
  · have hk : (resultVariable callee m.scope.result d).2.expansions + 1 < k := hk
    exact hname hc (by omega) hx

theorem proceeds_leaveCall (hS : S.Dotless) (hd : d.Plain (S.own calls)) {m : MethodDecl}
    (hm : m.IsStraight) (callee : String) {d₂ : Draft}
    (hbody : ((resultVariable callee m.scope.result d).2.enterCall callee
      (String.ofList (simpleName m.name.toList)) m.scope.result
      ((resultVariable callee m.scope.result d).1.map Prod.fst)).Proceeds
      (m.callPlace (d.expansions + 1) (m.scope.result.map fun _ ↦ tempName d.temporaries) calls) []
      d₂) :
    d.Proceeds (S.own calls) []
      (d₂.leaveCall callee (resultVariable callee m.scope.result d).2.frame) := by
  obtain ⟨-, hframe, hresults, -, -, -, hdeclared⟩ := resultVariable_spec callee m.scope.result d
  have hscope := d₂.sameScope_leaveCall callee (resultVariable callee m.scope.result d).2.frame
  have hframe := hscope.frame.trans hframe
  have hresult (id : NodeId) : (d₂.leaveCall callee
      (resultVariable callee m.scope.result d).2.frame).result? id = d.result? id := by
    have h := hbody.results id List.not_mem_nil
    unfold Draft.result? at h ⊢
    rw [hscope.results, h]
    exact congrArg (List.lookup id) hresults
  refine ⟨⟨fun id hid ↦ hd.known id (hresult id ▸ hid), ?_, ?_, ?_, ?_, ?_, fun c hc x type hx ht ↦ ?_,
    .inl rfl, fun _ c hc f k x hk hx ↦ ?_⟩, fun id _ ↦ hresult id,
    fun c _ ↦ .inr ⟨c.name, String.empty_append.symm⟩⟩
  · exact (congrArg Frame.qualifier hframe).trans hd.qualifier
  · exact (congrArg Frame.returnVariable hframe).trans hd.returnVariable
  · exact (congrArg Frame.isExpanded hframe).trans hd.isExpanded
  · exact (congrArg Frame.returnType hframe).trans hd.returnType
  · rw [hframe]
    exact hd.locals
  · -- The name of a variable of the call, or of its result, has a dot.
    have hdot := hS x type ht
    have hx : c.name = x := hx.trans String.empty_append
    rw [hscope.declarations] at hc
    rcases hbody.declared c hc with hc | ⟨y, hy⟩
    · rcases hdeclared c hc with hc | hc
      · exact hd.declared c hc x type (hx.trans String.empty_append.symm) ht
      · rw [← hx, hc] at hdot
        exact absurd (dot_mem_tempName _) hdot
    · rw [← hx, hy] at hdot
      exact absurd ((isCall_callPlace hm _ _).dot_mem y) hdot
  · rw [hscope.declarations] at hc
    rw [hscope.expansions] at hk
    exact hbody.plain.unused hm.dotless_scope c hc f k x hk hx

/-- Where an expanded call begins, the returns of the member around it are loose besides its own. -/
theorem proper_enterCall {L : Multiset Nat} (hd : d.Proper Γ L) {callee simpleName : String}
    {returnType : Option HwType} {returnVariable : Option String}
    (hr : ∀ type, returnType = some type → ∃ name, returnVariable = some name ∧
      Γ.Declares name type) :
    (d.enterCall callee simpleName returnType returnVariable).Proper Γ (↑d.frame.returns + L) := by
  obtain ⟨E, hg⟩ := hd.valid
  refine ⟨typed_enterCall hd.typed hr, E, ?_⟩
  have hexits : (d.enterCall callee simpleName returnType returnVariable).looseExits +
      (↑d.frame.returns + L) = d.looseExits + L := by
    change (d.loops.map fun y ↦ (↑y.breaks + ↑y.continues : Multiset Nat)).sum + ↑([] : List Nat) +
      (↑d.frame.returns + L) =
      (d.loops.map fun y ↦ (↑y.breaks + ↑y.continues : Multiset Nat)).sum + ↑d.frame.returns + L
    rw [Multiset.coe_nil, add_zero, add_assoc]
  rw [hexits]
  exact hg

end Lowering

end Fabric
