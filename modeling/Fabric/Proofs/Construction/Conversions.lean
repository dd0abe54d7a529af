import Fabric.Proofs.Construction.Kinding

namespace Fabric

namespace Kinding

variable (K : Kinding) (l : Lowering) (member : String)

structure SuitsCall (h : MemberHandle) (args : List Expr) : Prop where
  admits : ∀ a ∈ args, K.AdmitsAll l member a
  converts : ∀ p ∈ (l.program.tree.method h).parameters.zip args, ∀ t,
    l.parameterType (l.program.tree.memberFullName h) p.1 = .ok t → (K.node p.2.id).Converts t

/-- A call of a batch: its arguments are converted as hardware can, and its result has the type of the
node for which it is made. -/
def Batched (x : NodeId × Invocation) : Prop :=
  (∀ a ∈ x.2.arguments, a.2.Rendered) ∧ ∀ type ∈ x.2.returnType, type.Near (K.node x.1)

variable {K l member}

theorem AdmitsAll.call {e : Expr} {h : MemberHandle} {args : List Expr} (he : K.AdmitsAll l member e)
    (hc : l.callee e = .ok (h, args)) : K.SuitsCall l member h args ∧
      ∀ t, l.resultType h = .ok t → ∀ type ∈ t, type.Near (K.node e.id) := by
  cases e with
  | call id target args =>
    obtain ⟨h', hh, hc⟩ := Synthesis.bind_eq_ok.1 hc
    obtain ⟨rfl, rfl⟩ := Prod.mk.inj (Except.ok.inj hc)
    obtain ⟨htype, hconverts⟩ := he.self h' (Lowering.require_eq_ok.1 hh)
    exact ⟨⟨fun a ha ↦ he.child ha, hconverts⟩, htype⟩
  | _ => cases hc

end Kinding

def Expansion.Kinded (K : Kinding) (l : Lowering) (expand : Expansion) : Prop :=
  ∀ ⦃h : MemberHandle⦄ ⦃args : List Expr⦄ ⦃d d' : Draft⦄ ⦃value : Option Lowered⦄,
    expand h args d = .ok (value, d') → ∀ {member : String} {result : Option HwType},
      d.Kinded K member result → K.SuitsCall l member h args →
      d'.Kinded K member result ∧ l.Returns h value

theorem Draft.Relinks.leaveCall {C : HwExpr → Prop} (d : Draft) (callee : String) (outer : Frame) :
    Relinks C { d with frame := outer } (d.leaveCall callee outer) := by
  rw [leaveCall_eq]
  split
  · exact (setTransition _ d.current (List.forall_mem_nil _)).trans (.ofCode rfl rfl rfl rfl rfl)
  · exact ((addState _ _).trans (.linkAll _ _ _)).trans (.enter _ _)

namespace Lowering

variable {l : Lowering} {K : Kinding} {member : String} {result : Option HwType} {d d' : Draft}
  {v : Lowered} {expand : Expansion}

def Passed (l : Lowering) (callee : String) (parameters : List Parameter) (a : Argument) : Prop :=
  (a.value.coerce a.type).Rendered ∧
    ∃ p ∈ parameters, p.name = a.name ∧ l.parameterType callee p = .ok a.type

theorem kinded_evalArguments {callee : String} {params : List (Parameter × Expr)}
    (hd : d.Kinded K member result) (hadmits : ∀ p ∈ params, K.AdmitsAll l member p.2)
    (hconverts : ∀ p ∈ params, ∀ t, l.parameterType callee p.1 = .ok t → (K.node p.2.id).Converts t)
    {arguments : List Argument} (h : l.evalArguments callee params d = .ok (arguments, d')) :
    d'.Kinded K member result ∧ ∀ a ∈ arguments, l.Passed callee (params.map Prod.fst) a := by
  induction params generalizing arguments d with
  | nil =>
    obtain ⟨rfl, rfl⟩ := Prod.mk.inj (Except.ok.inj h)
    exact ⟨hd, List.forall_mem_nil _⟩
  | cons p rest ih =>
    obtain ⟨hp, hrest⟩ := List.forall_mem_cons.1 hadmits
    obtain ⟨hcp, hcrest⟩ := List.forall_mem_cons.1 hconverts
    obtain ⟨type, v, d₁, others, htype, hv, hothers, rfl⟩ := evalArguments_eq_ok h
    obtain ⟨hd₁, hnear, hrendered⟩ := kinded_expr hd hp hv
    obtain ⟨hd₂, hpassed⟩ := ih hd₁ hrest hcrest hothers
    refine ⟨hd₂, List.forall_mem_cons.2 ⟨⟨?_, p.1, List.mem_cons_self, rfl, htype⟩, fun a ha ↦ ?_⟩⟩
    · exact Lowered.rendered_coerce hrendered (hnear.converts (hcp type htype))
    · obtain ⟨hcoerce, q, hq, hrest⟩ := hpassed a ha
      exact ⟨hcoerce, q, List.mem_cons_of_mem _ hq, hrest⟩

theorem kinded_arguments {h : MemberHandle} {args : List Expr} (hd : d.Kinded K member result)
    (hcall : K.SuitsCall l member h args) {arguments : List Argument}
    (ha : l.arguments h args d = .ok (arguments, d')) :
    d'.Kinded K member result ∧ ∀ a ∈ arguments,
      l.Passed (l.program.tree.memberFullName h) (l.program.tree.method h).parameters a := by
  obtain ⟨harity, ha⟩ := arguments_eq_ok ha
  obtain ⟨hd', hpassed⟩ := kinded_evalArguments hd
    (fun p hp ↦ hcall.admits p.2 (List.of_mem_zip hp).2) hcall.converts ha
  refine ⟨hd', fun a ha ↦ ?_⟩
  have h := hpassed a ha
  rwa [List.map_fst_zip harity.le] at h

theorem kinded_settleArguments (callee : String) {arguments : List Argument}
    (hd : d.Kinded K member result)
    (ha : ∀ a ∈ arguments, (a.value.coerce a.type).Rendered) :
    (Draft.settleArguments callee arguments d).2.Kinded K member result ∧
      ∀ x ∈ (Draft.settleArguments callee arguments d).1, x.2.Rendered := by
  induction arguments generalizing d with
  | nil => exact ⟨hd, List.forall_mem_nil _⟩
  | cons a rest ih =>
    obtain ⟨ha, hrest⟩ := List.forall_mem_cons.1 ha
    unfold Draft.settleArguments
    dsimp only
    split
    · have hset : (HwStmt.setVariable (tempName d.temporaries) (a.value.coerce a.type)).Rendered :=
        HwStmt.rendered_setVariable ha
      obtain ⟨hd', hvalues⟩ := ih ((hd.temporary a.type _).emit hset a.value.cost) hrest
      exact ⟨hd', List.forall_mem_cons.2 ⟨HwExpr.rendered_variable _, hvalues⟩⟩
    · obtain ⟨hd', hvalues⟩ := ih hd hrest
      exact ⟨hd', List.forall_mem_cons.2 ⟨ha, hvalues⟩⟩

theorem kinded_invocation {h : MemberHandle} {group : NodeId} {args : List Expr} {c : Invocation}
    (hd : d.Kinded K member result) (hcall : K.SuitsCall l member h args)
    (hi : l.invocation h group args d = .ok (c, d')) :
    d'.Kinded K member result ∧ l.resultType h = .ok c.returnType ∧
      ∀ x ∈ c.arguments, x.2.Rendered := by
  obtain ⟨slot, d₁, arguments, d₂, type, hslot, harguments, htype, rfl, rfl⟩ := invocation_eq_ok hi
  obtain ⟨-, -, rfl⟩ := takeSlot_eq hslot
  have hd₁ : Draft.Kinded K member result { d with
      slots := ((group, l.program.tree.memberFullName h), slot + 1) :: d.slots } :=
    hd.ofCode rfl rfl hd.rendered
  obtain ⟨hd₂, hpassed⟩ := kinded_arguments hd₁ hcall harguments
  obtain ⟨hd', hvalues⟩ := kinded_settleArguments (l.program.tree.memberFullName h) hd₂
    fun a ha ↦ (hpassed a ha).1
  exact ⟨hd', htype, hvalues⟩

end Lowering

namespace Draft.Kinded

variable {K : Kinding} {member : String} {result : Option HwType} {d : Draft}

theorem collect (hd : d.Kinded K member result) (calls : List Invocation) :
    (Draft.collect calls d).2.Kinded K member result := by
  induction calls generalizing d with
  | nil => exact hd
  | cons c rest ih =>
    have hdrop : (HwStmt.drive (c.pin .started) (.bool false)).Rendered :=
      HwStmt.rendered_drive (HwExpr.rendered_bool false)
    unfold Draft.collect
    cases c.returnType with
    | none => exact ih (hd.push hdrop)
    | some type =>
      exact ih (((hd.temporary type _).push
        (HwStmt.rendered_setVariable (HwExpr.rendered_signal _))).push hdrop)

theorem awaitCalls (hd : d.Kinded K member result) {calls : List Invocation}
    (hcalls : ∀ c ∈ calls, ∀ x ∈ c.arguments, x.2.Rendered) (label : String → String) :
    (d.awaitCalls calls label).Kinded K member result := by
  have hidle : (Invocation.idle calls).Rendered := by
    refine HwExpr.rendered_all fun e he ↦ ?_
    obtain ⟨c, -, rfl⟩ := List.mem_map.1 he
    exact (HwExpr.rendered_signal _).unary .not
  have hdone : (HwExpr.all (calls.map Invocation.finished)).Rendered := by
    refine HwExpr.rendered_all fun e he ↦ ?_
    obtain ⟨c, -, rfl⟩ := List.mem_map.1 he
    exact HwExpr.rendered_signal _
  have hstart : ∀ s ∈ calls.flatMap Invocation.startBody, s.Rendered := by
    intro s hs
    obtain ⟨c, hc, hs⟩ := List.mem_flatMap.1 hs
    obtain hs | hs := List.mem_append.1 hs
    · obtain ⟨x, hx, rfl⟩ := List.mem_map.1 hs
      exact HwStmt.rendered_drive (hcalls c hc x hx)
    · obtain rfl := List.mem_singleton.1 hs
      exact HwStmt.rendered_drive (HwExpr.rendered_bool true)
  let d₁ := (d.addState (label "start")).setTransition d.current
    (.waitFor (Invocation.idle calls) (.state d.nextState))
  let d₂ := d₁.modifyState d.nextState fun s ↦ { s with body := calls.flatMap Invocation.startBody }
  have hd₁ : d₁.Kinded K member result :=
    hd.relink ((Relinks.addState d _).trans (.setTransition _ _ (List.forall_mem_singleton.2 hidle)))
  have hd₂ : d₂.Kinded K member result := by
    refine hd₁.ofCode rfl rfl ?_
    rw [d₁.code_modifyState d.nextState _
      (fun b ↦ { b with body := calls.flatMap Invocation.startBody }) fun _ ↦ rfl]
    exact forall_mem_modify _ hd₁.rendered fun _ hb ↦ ⟨hstart, hb.2⟩
  let d₃ := (d₂.addState (label "await")).link d.nextState d₂.nextState
  have hd₃ : d₃.Kinded K member result := hd₂.relink
    ((Relinks.addState d₂ _).trans (.setTransition _ d.nextState (List.forall_mem_nil _)))
  have hconditions : ∀ c ∈ (Transition.waitFor (HwExpr.all (calls.map Invocation.finished))
      (DraftTarget.state d₃.nextState)).conditions, c.Rendered := List.forall_mem_singleton.2 hdone
  exact hd₃.relink (((Relinks.addState d₃ (label "collect")).trans
    (.setTransition _ d₂.nextState hconditions)).trans (.enter _ d₃.nextState))

theorem join (hd : d.Kinded K member result) (label : String) (source : Nat) {c : HwExpr}
    (hc : c.Rendered) (ifTrue ifFalse : DraftTarget) (exits : List Nat) :
    (d.join label source (.branch c ifTrue ifFalse) exits).Kinded K member result := by
  have hconditions : ∀ x ∈ (Transition.branch c ifTrue ifFalse).conditions, x.Rendered :=
    List.forall_mem_singleton.2 hc
  exact hd.relink (.join d label source hconditions exits)

theorem leave (hd : d.Kinded K member result) : d.leave.Kinded K member result :=
  have h := hd.relink (.setTransition d d.current (t := .goto .finished) (List.forall_mem_nil _))
  { named := h.named
    returning := h.returning
    regular := h.regular.ofLocals h.regular rfl rfl
    locals := h.locals
    results := h.results
    rendered := h.rendered }

/-- A batch of calls whose arguments are converted as hardware can. -/
theorem handshake (hd : d.Kinded K member result) {calls : List Invocation}
    (hcalls : ∀ c ∈ calls, ∀ x ∈ c.arguments, x.2.Rendered) :
    (d.handshake calls).2.Kinded K member result := by
  obtain ⟨label, heq⟩ := d.handshake_eq calls
  rw [heq]
  exact ((hd.relink (.openState d _)).awaitCalls hcalls label).collect calls

end Draft.Kinded

namespace Lowering

variable {l : Lowering} {K : Kinding} {member : String} {result : Option HwType} {d d' : Draft}
  {v : Lowered} {expand : Expansion}

section

variable (hexpand : expand.Kinded K l)

include hexpand

theorem kinded_gather {calls : List Expr} (hd : d.Kinded K member result)
    (hcalls : ∀ e ∈ calls, K.AdmitsAll l member e) {batch : List (NodeId × Invocation)}
    (hg : l.gather expand calls d = .ok (batch, d')) :
    d'.Kinded K member result ∧ ∀ x ∈ batch, K.Batched x := by
  induction calls generalizing d batch with
  | nil =>
    obtain ⟨rfl, rfl⟩ := Prod.mk.inj (Except.ok.inj hg)
    exact ⟨hd, List.forall_mem_nil _⟩
  | cons e rest ih =>
    obtain ⟨he, hrest⟩ := List.forall_mem_cons.1 hcalls
    obtain ⟨h, args, hcallee, ⟨-, value, d₁, hvalue, hg⟩ | ⟨-, group, c, d₁, others, -, hc, hothers, rfl⟩⟩ :=
      gather_eq_ok hg
    · obtain ⟨hcall, htype⟩ := he.call hcallee
      obtain ⟨hd₁, type, name, hresult, rfl⟩ := hexpand hvalue hd hcall
      exact ih (hd₁.setResult (htype type hresult)) hrest hg
    · obtain ⟨hcall, htype⟩ := he.call hcallee
      obtain ⟨hd₁, hresult, harguments⟩ := kinded_invocation hd hcall hc
      obtain ⟨hd₂, hbatch⟩ := ih hd₁ hrest hothers
      exact ⟨hd₂, List.forall_mem_cons.2 ⟨⟨harguments, htype c.returnType hresult⟩, hbatch⟩⟩

omit hexpand in
theorem kinded_setResults {batch : List (NodeId × Invocation)} {values : List (Option Lowered)}
    (hd : d.Kinded K member result) (hvalues : Collected (batch.map Prod.snd) values)
    (hbatch : ∀ x ∈ batch, K.Batched x) :
    (((batch.map Prod.fst).zip values).foldl (fun d x ↦ d.setResult x.1 x.2) d).Kinded K member
      result := by
  induction batch generalizing values d with
  | nil => exact hd
  | cons x rest ih =>
    obtain ⟨value, values, ⟨name, rfl⟩, hrest, rfl⟩ := List.forall₂_cons_left_iff.1 hvalues
    obtain ⟨hx, hothers⟩ := List.forall_mem_cons.1 hbatch
    exact ih (hd.setResult hx.2) hrest hothers

theorem kinded_invoke {calls : List Expr} (hd : d.Kinded K member result)
    (hcalls : ∀ e ∈ calls, K.AdmitsAll l member e) (hi : l.invoke expand calls d = .ok d') :
    d'.Kinded K member result := by
  obtain ⟨batch, d₁, hbatch, hd'⟩ := invoke_eq_ok hi
  obtain ⟨hd₁, hbatched⟩ := kinded_gather hexpand hd hcalls hbatch
  obtain ⟨-, rfl⟩ | ⟨-, rfl⟩ := hd'
  · exact hd₁
  · have harguments : ∀ c ∈ batch.map Prod.snd, ∀ x ∈ c.arguments, x.2.Rendered := by
      intro c hc
      obtain ⟨x, hx, rfl⟩ := List.mem_map.1 hc
      exact (hbatched x hx).1
    have hshake := hd₁.handshake harguments
    have hvalues := (@learns_handshake l (fun _ _ ↦ True) [] (batch.map Prod.snd) d₁).2
    exact kinded_setResults hshake hvalues hbatched

end

theorem kinded_storeIn {name : String} {type : HwType} {prepare : Expr → Draft → Synthesis Draft}
    {e : Expr} (hprepare : ∀ {d d' : Draft}, d.Kinded K member result → prepare e d = .ok d' →
      d'.Kinded K member result) (hd : d.Kinded K member result) (he : K.AdmitsAll l member e)
    (hconverts : (K.node e.id).Converts type) (h : l.storeIn name type prepare e d = .ok d') :
    d'.Kinded K member result := by
  obtain ⟨d₁, v, d₂, h₁, h₂, rfl⟩ := storeIn_eq_ok h
  obtain ⟨hd₂, hnear, hrendered⟩ := kinded_expr (hprepare hd h₁) he h₂
  exact hd₂.emit (HwStmt.rendered_setVariable (Lowered.rendered_coerce hrendered
    (hnear.converts hconverts))) _

theorem kinded_guarded {prepare : Expr → Draft → Synthesis Draft} {e : Expr}
    (hprepare : ∀ c ∈ e.children, ∀ {d d' : Draft}, d.Kinded K member result →
      prepare c d = .ok d' → d'.Kinded K member result) (hguarded : e.isGuarded)
    (hd : d.Kinded K member result) (he : K.AdmitsAll l member e)
    (h : l.guarded prepare e d = .ok d') : d'.Kinded K member result := by
  have hself := he.self
  cases guarded_eq_ok h with
  | @conditional id condition ifTrue ifFalse type c d₁ d₂ d₃ hinfer hc h₂ h₃ =>
    have hcondition := he.child (c := condition) (by simp [Expr.children])
    have htrue := he.child (c := ifTrue) (by simp [Expr.children])
    have hfalse := he.child (c := ifFalse) (by simp [Expr.children])
    have htype := near_infer hd he hinfer
    obtain ⟨hd₁, hnear, hrendered⟩ := kinded_expr (hd.temporary type _) hcondition hc
    have hready := (hd₁.relink (.reserve d₁ c.cost)).relink (.fork _ "conditional: true")
    have hd₂ := kinded_storeIn (hprepare ifTrue (by simp [Expr.children])) hready htrue
      (.of_near (hself.2.1.trans htype.symm)) h₂
    have hd₃ := kinded_storeIn (hprepare ifFalse (by simp [Expr.children]))
      (hd₂.relink (.fork _ "conditional: false")) hfalse (.of_near (hself.2.2.trans htype.symm)) h₃
    have hcoerce : (c.coerce .boolean).Rendered :=
      Lowered.rendered_coerce hrendered (hnear.converts hself.1)
    have hjoin := hd₃.join "conditional: join" (d₁.reserve c.cost).current hcoerce
      (.state (d₁.reserve c.cost).nextState) (.state d₂.nextState) [d₂.current, d₃.current]
    exact hjoin.setResult (t := some type) fun _ h ↦ Option.some.inj h ▸ htype
  | @binary id op lhs rhs left d₁ d₀ d₂ hleft hemit h₂ =>
    have hlhs := he.child (c := lhs) (by simp [Expr.children])
    have hrhs := he.child (c := rhs) (by simp [Expr.children])
    have hlogical : op.isLogical = true := (Bool.and_eq_true_iff.1 hguarded).1
    rw [Kinding.Admits, if_pos (by rw [hlogical, Bool.or_true])] at hself
    obtain ⟨hboolean, hoperands⟩ := hself
    obtain ⟨hcl, hcr⟩ := hoperands hlogical
    obtain ⟨hd₁, hnear, hrendered⟩ := kinded_expr (hd.temporary .boolean "short-circuit value") hlhs hleft
    have hset : (HwStmt.setVariable (tempName d.temporaries) (left.coerce .boolean)).Rendered :=
      HwStmt.rendered_setVariable (Lowered.rendered_coerce hrendered (hnear.converts hcl))
    have hd₀ : d₀.Kinded K member result := hemit ▸ hd₁.emit hset left.cost
    have hd₂ := kinded_storeIn (hprepare rhs (by simp [Expr.children]))
      (hd₀.relink (.fork _ "evaluate right operand")) hrhs hcr h₂
    refine Draft.Kinded.setResult (t := some .boolean) ?_ fun _ h ↦ Option.some.inj h ▸ .inl hboolean.symm
    exact hd₂.join "short-circuit join" _ (HwExpr.rendered_variable _) _ _ [_]

theorem kinded_prepareUpTo (hexpand : expand.Kinded K l) (rounds : Nat) {e : Expr}
    (hd : d.Kinded K member result) (he : K.AdmitsAll l member e)
    (h : l.prepareUpTo expand rounds e d = .ok d') : d'.Kinded K member result := by
  induction rounds generalizing e d d' with
  | zero =>
    obtain rfl := Except.ok.inj h
    exact hd
  | succ rounds ih =>
    have hready := d.apt_ready e
    obtain ⟨-, rfl⟩ | ⟨g, d₁, heq, hg, h⟩ | ⟨d₁, -, hcalls, h⟩ := prepareUpTo_eq_ok h
    · exact hd
    · obtain ⟨hmem, hguarded, -, -⟩ := hready.guarded g (by rw [heq]; rfl)
      have hnode := he.of_mem hmem
      exact ih (kinded_guarded (fun c hc _ _ hd hrun ↦ ih hd (hnode.child hc) hrun) hguarded hd hnode hg)
        he h
    · exact ih (kinded_invoke hexpand hd (fun x hx ↦ he.of_mem (hready.sub.subset hx)) hcalls) he h

/-- Preparing an expression writes only conversions that hardware has. -/
theorem kinded_prepare (hexpand : expand.Kinded K l) {e : Expr} (hd : d.Kinded K member result)
    (he : K.AdmitsAll l member e) (h : l.prepare expand e d = .ok d') : d'.Kinded K member result :=
  kinded_prepareUpTo hexpand _ hd he h

theorem kinded_value (hexpand : expand.Kinded K l) {e : Expr} {t : HwType}
    (hd : d.Kinded K member result) (he : K.AdmitsAll l member e) (ht : K.Suits e t)
    (h : l.value expand e t d = .ok (v, d')) : d'.Kinded K member result ∧ (v.coerce t).Rendered := by
  obtain ⟨id, element, length, t, n, rfl, rfl, rfl, rfl⟩ | ⟨hne, d₁, h₁, h⟩ := value_eq_ok h
  · exact ⟨hd, Lowered.rendered_coerce (HwExpr.rendered_int _ _) (.inl rfl)⟩
  · obtain ⟨hd', hnear, hrendered⟩ := kinded_expr (kinded_prepare hexpand hd he h₁) he h
    unfold Kinding.Suits at ht
    split at ht
    next e => exact (hne _ _ _ _ _ rfl rfl).elim
    next => exact ⟨hd', Lowered.rendered_coerce hrendered (hnear.converts ht)⟩

theorem kinded_condition (hexpand : expand.Kinded K l) {s : Stmt} {e : Expr} {c : HwExpr}
    (hs : K.AdmitsStmt l member result s) (he : e ∈ s.condition?) (hd : d.Kinded K member result)
    (h : l.condition expand e d = .ok (c, d')) : d'.Kinded K member result ∧ c.Rendered := by
  obtain ⟨d₁, v, d₂, h₁, h₂, rfl, rfl⟩ := condition_eq_ok h
  have hadmits := hs.1 e (Stmt.mem_exprs_of_condition he)
  obtain ⟨hd₂, hnear, hrendered⟩ := kinded_expr (kinded_prepare hexpand hd hadmits h₁) hadmits h₂
  exact ⟨hd₂.relink (.reserve d₂ v.cost),
    Lowered.rendered_coerce hrendered (hnear.converts (hs.2.1 e he))⟩

theorem kinded_declare (hexpand : expand.Kinded K l) {id : NodeId} {name : String} {type : TypeRef}
    {init : Option Expr} (hs : K.AdmitsStmt l member result (.declare id name type init))
    (hd : d.Kinded K member result) (h : l.declare expand name type init d = .ok d') :
    d'.Kinded K member result := by
  obtain ⟨t, ht, hinit⟩ := declare_eq_ok h
  rw [localType, hd.named] at ht
  obtain ⟨hnear, hsuits⟩ := hs.2.2 t ht
  have hname {d : Draft} (hd : d.Kinded K member result) (comment : String) :
      ((d.declare name t comment).2.bind name (.variable (d.declare name t comment).1 t)).Kinded K
        member result := (hd.declare name t comment).bind (.inl ⟨_, _, rfl⟩) hnear
  obtain ⟨-, rfl⟩ | ⟨e, v, d₁, rfl, hv, rfl⟩ := hinit
  · exact hname hd _
  · obtain ⟨hd₁, hrendered⟩ := kinded_value hexpand hd (hs.1 e List.mem_cons_self) (hsuits e rfl) hv
    exact (hname hd₁ _).emit (HwStmt.rendered_setVariable hrendered) _

theorem kinded_assign (hexpand : expand.Kinded K l) {id : NodeId} {target : AssignTarget} {e : Expr}
    (hs : K.AdmitsStmt l member result (.assign id target e)) (hd : d.Kinded K member result)
    (h : l.assign expand target e d = .ok d') : d'.Kinded K member result := by
  obtain ⟨name, x, type, v, d₁, htarget, hb, hv, rfl⟩ := assign_eq_ok h
  have hnear := hd.locals name _ (require_eq_ok.1 hb)
  have hsuits : K.Suits e (K.name member name) := by
    obtain rfl | rfl := htarget
    · exact hs.2.2
    · exact hs.2.2
  obtain ⟨hd₁, hrendered⟩ := kinded_value hexpand hd (hs.1 e List.mem_cons_self)
    (hsuits.near hnear.symm) hv
  exact hd₁.emit (HwStmt.rendered_setVariable hrendered) _

theorem kinded_store (hexpand : expand.Kinded K l) {id : NodeId} {array index value : Expr}
    (hs : K.AdmitsStmt l member result (.store id array index value)) (hd : d.Kinded K member result)
    (h : l.store expand array index value d = .ok d') : d'.Kinded K member result := by
  have hindex := hs.1 index (by simp [Stmt.exprs])
  have hvalue := hs.1 value (by simp [Stmt.exprs])
  obtain ⟨name, x, element, length, d₁, d₂, i, d₃, v, d₄, cost, hname, hb, h₁, h₂, h₃, h₄, -, rfl⟩ :=
    store_eq_ok h
  have hnear := hd.locals name _ (require_eq_ok.1 hb)
  have hd₂ := kinded_prepare hexpand (kinded_prepare hexpand hd hindex h₁) hvalue h₂
  obtain ⟨hd₃, -, hri⟩ := kinded_expr hd₂ hindex h₃
  obtain ⟨hd₄, hnv, hrv⟩ := kinded_expr hd₃ hvalue h₄
  have htype : K.name member name = .array element length := hnear.symm.eq_array
  have hconverts := hs.2.2 name hname element (by rw [htype]; rfl)
  exact hd₄.emit (HwStmt.rendered_element hri
    (Lowered.rendered_coerce hrv (hnv.converts hconverts))) _

theorem kinded_ret (hexpand : expand.Kinded K l) {id : NodeId} {value : Option Expr}
    (hs : K.AdmitsStmt l member result (.ret id value)) (hd : d.Kinded K member result)
    (h : l.ret expand value d = .ok d') : d'.Kinded K member result := by
  obtain ⟨e, type, v, d₁, rfl, htype, hv, rfl⟩ | ⟨-, -, rfl⟩ | ⟨e, d₁, rfl, -, h₁, rfl⟩ := ret_eq_ok h
  · obtain ⟨hd₁, hrendered⟩ := kinded_value hexpand hd (hs.1 e List.mem_cons_self)
      (hs.2.2 e rfl type (hd.returning ▸ htype)) hv
    refine (hd₁.emit ?_ _).leave
    unfold returnTarget
    cases d.frame.returnVariable with
    | none => exact HwStmt.rendered_drive hrendered
    | some name => exact HwStmt.rendered_setVariable hrendered
  · exact hd.leave
  · exact (kinded_prepare hexpand hd (hs.1 e List.mem_cons_self) h₁).leave

theorem kinded_eval (hexpand : expand.Kinded K l) {id : NodeId} {e : Expr}
    (hs : K.AdmitsStmt l member result (.eval id e)) (hd : d.Kinded K member result)
    (h : l.eval expand e d = .ok d') : d'.Kinded K member result := by
  have he := hs.1 e List.mem_cons_self
  obtain ⟨d₁, h₁, ⟨-, rfl⟩ | ⟨-, v, h₂⟩⟩ := eval_eq_ok h
  · exact kinded_prepare hexpand hd he h₁
  · exact (kinded_expr (kinded_prepare hexpand hd he h₁) he h₂).1

theorem kinded_copies {h : MemberHandle} {group : NodeId} {args : List Expr} {index : String}
    {first count : Nat} {calls : List Invocation} (hindex : (K.name member index).IsInteger)
    (hcall : K.SuitsCall l member h args) (hd : d.Kinded K member result)
    (hc : l.copies h group args index first count d = .ok (calls, d')) :
    d'.Kinded K member result ∧ ∀ c ∈ calls, l.resultType h = .ok c.returnType ∧
      ∀ x ∈ c.arguments, x.2.Rendered := by
  induction count generalizing first d calls with
  | zero =>
    obtain ⟨rfl, rfl⟩ := Prod.mk.inj (Except.ok.inj hc)
    exact ⟨hd, List.forall_mem_nil _⟩
  | succ count ih =>
    obtain ⟨c, d₁, others, hfirst, hothers, rfl⟩ := copies_eq_ok hc
    have hbound : (d.bind index (.constant (.int (Int64.ofNat first) (.signed 32))
        (.signed 32))).Kinded K member result :=
      hd.bind (.inr ⟨Int64.ofNat first, rfl⟩) (.inr ⟨.inl ⟨32, rfl⟩, hindex⟩)
    obtain ⟨hd₁, hthis⟩ := kinded_invocation hbound hcall hfirst
    obtain ⟨hd₂, hrest⟩ := ih hd₁ hothers
    exact ⟨hd₂, List.forall_mem_cons.2 ⟨hthis, hrest⟩⟩

theorem kinded_storeResults (array : String) (element : HwType) {values : List (Option Lowered)}
    (hd : d.Kinded K member result) (hvalues : ∀ v ∈ values, ∀ w ∈ v, (w.coerce element).Rendered) :
    (storeResults array element values d).Kinded K member result :=
  storeResults_induction (motive := (·.Kinded K member result)) hd fun _ _ v hv hd ↦
    hd.push (HwStmt.rendered_element (HwExpr.rendered_int _ _) (hvalues _ hv v rfl))

/-- The array for results has elements of the type that the called member returns. -/
theorem kinded_resultArray {h : MemberHandle} {name : String} {count : UInt32} {array : String}
    {element : HwType} (hd : d.Kinded K member result)
    (htype : ∀ t, l.resultType h = .ok t → ∀ type ∈ t, K.name member name =
      .array type ((l.program.arrays.get? (memberArrayKey member name)).getD count))
    (hr : l.resultArray h name count d = .ok ((array, element), d')) :
    d'.Kinded K member result ∧ ∀ t, l.resultType h = .ok t → ∀ type ∈ t, type = element := by
  obtain ⟨length, hb, rfl⟩ | ⟨-, ht, rfl, rfl⟩ := resultArray_eq_ok hr
  · refine ⟨hd, fun t ht type hmem ↦ ?_⟩
    have hname := (hd.locals name _ hb).symm.eq_array
    exact (HwType.array.inj ((htype t ht type hmem).symm.trans hname)).1
  · refine ⟨(hd.declare name _ _).bind (.inl ⟨_, _, rfl⟩) ?_, fun t' ht' type' hmem' ↦ ?_⟩
    · rw [htype _ ht element rfl, hd.named]
      exact .inl rfl
    · obtain rfl := Except.ok.inj (ht.symm.trans ht')
      exact Option.some.inj hmem'.symm

theorem kinded_parallel {group : NodeId} {count : Expr} {index : String} {call : Expr}
    {results : Option String}
    (hs : K.AdmitsStmt l member result (.parallel group count index call results))
    (hd : d.Kinded K member result) (hp : l.parallel group count index call results d = .ok d') :
    d'.Kinded K member result := by
  obtain ⟨hadmits, -, hindex, hresults⟩ := hs
  obtain ⟨copies, h, args, batch, d₁, hcopies, hcallee, -, hbatch, hd'⟩ := parallel_eq_ok hp
  have hcall := ((hadmits call (by simp [Stmt.exprs])).call hcallee).1
  obtain ⟨hd₁, hcalls⟩ := kinded_copies hindex hcall hd hbatch
  have hreset : (d₁.withLocals d.frame.locals).Kinded K member result := by
    have heq : d₁.withLocals d.frame.locals = { d₁ with frame := d.frame } := by
      rw [Draft.withLocals, frame_copies hbatch]
    rw [heq]
    exact hd.ofFrame hd₁
  have hshake := hreset.handshake fun c hc ↦ (hcalls c hc).2
  have hvalues := (@learns_handshake l (fun _ _ ↦ True) [] batch (d₁.withLocals d.frame.locals)).2
  generalize (d₁.withLocals d.frame.locals).handshake batch = shaken at hd' hshake hvalues
  obtain ⟨-, rfl⟩ | ⟨name, array, element, d₂, rfl, harray, rfl⟩ := hd'
  · exact hshake
  · obtain ⟨hd₂, helement⟩ := kinded_resultArray hshake (fun t ht type hmem ↦
      hresults name rfl (h, args) hcallee t ht type hmem copies hcopies) harray
    refine kinded_storeResults array element hd₂ fun v hv w hw ↦ ?_
    obtain ⟨c, hc, x, rfl⟩ := exists_of_mem_forall₂ hvalues hv
    obtain ⟨type, hmem, rfl⟩ := Option.map_eq_some_iff.1 hw
    exact Lowered.rendered_coerce (HwExpr.rendered_variable x)
      (.inl (helement _ (hcalls c hc).1 type hmem))

/-- The statements of a member that suits the kinding are lowered with conversions that hardware has. -/
theorem steps_kinded (hexpand : expand.Kinded K l) (member : String) (result : Option HwType) :
    l.Steps expand (fun s ↦ ∀ t ∈ s.nodes, K.AdmitsStmt l member result t)
      (fun d ↦ d.Kinded K member result) HwExpr.Rendered
      fun d d' ↦ d.Kinded K member result → d'.Kinded K member result where
  child hs hc t ht := hs t (Stmt.nodes_subset_of_mem_children hc ht)
  trans h h' hd := h' (h hd)
  outside hnot hd := absurd hd hnot
  relink hr hd := hd.relink hr
  condition hs he h :=
    ⟨fun hd ↦ (kinded_condition hexpand (hs _ (Stmt.mem_nodes_self _)) he hd h).1,
      fun hd ↦ (kinded_condition hexpand (hs _ (Stmt.mem_nodes_self _)) he hd h).2⟩
  declare hs h hd := kinded_declare hexpand (hs _ (Stmt.mem_nodes_self _)) hd h
  assign hs h hd := kinded_assign hexpand (hs _ (Stmt.mem_nodes_self _)) hd h
  store hs h hd := kinded_store hexpand (hs _ (Stmt.mem_nodes_self _)) hd h
  ret hs h hd := kinded_ret hexpand (hs _ (Stmt.mem_nodes_self _)) hd h
  eval hs h hd := kinded_eval hexpand (hs _ (Stmt.mem_nodes_self _)) hd h
  parallel hs h hd := kinded_parallel (hs _ (Stmt.mem_nodes_self _)) hd h

/-- The expanded call starts with variables for its parameters, whose arguments are converted as hardware
can. -/
theorem kinded_bindArguments {callee : String} {parameters : List Parameter}
    (hparameters : ∀ p ∈ parameters, ∀ t, l.parameterType callee p = .ok t →
      t.Near (K.name callee p.name)) {arguments : List Argument}
    (ha : ∀ a ∈ arguments, l.Passed callee parameters a) (hd : d.Kinded K callee result) :
    (d.bindArguments callee arguments).Kinded K callee result := by
  induction arguments generalizing d with
  | nil => exact hd
  | cons a rest ih =>
    obtain ⟨⟨hrendered, p, hp, hname, htype⟩, hrest⟩ := List.forall_mem_cons.1 ha
    have hnear : a.type.Near (K.name callee a.name) := hname ▸ hparameters p hp a.type htype
    let declared := d.declare a.name a.type ("parameter " ++ a.name ++ " of " ++ callee)
    have hset : (HwStmt.setVariable declared.1 (a.value.coerce a.type)).Rendered :=
      HwStmt.rendered_setVariable hrendered
    exact ih hrest (((hd.declare a.name a.type _).emit hset a.value.cost).bind (.inl ⟨_, _, rfl⟩) hnear)

theorem kinded_resultVariable (hd : d.Kinded K member result) (callee : String)
    (returnType : Option HwType) : (resultVariable callee returnType d).2.Kinded K member result := by
  cases returnType with
  | none => exact hd
  | some type => exact hd.temporary type _

theorem kinded_noExpansion : Expansion.Kinded K l noExpansion := by
  intro h args d d' value he
  cases he

theorem kinded_expand (hK : ∀ h ∈ l.program.tree.handles, K.AdmitsMember l h) :
    Expansion.Kinded K l (l.expand (l.stmt noExpansion)) := by
  intro h args d d' value he member result hd hcall
  obtain ⟨code, arguments, d₁, returnType, d₂, hcode, harguments, htype, hrun, rfl, rfl⟩ := expand_eq he
  obtain ⟨hparameters, hstmts⟩ := hK h (mem_handles_of_body hcode)
  obtain ⟨hd₁, hpassed⟩ := kinded_arguments hd hcall harguments
  have hd₀ := kinded_resultVariable hd₁ (l.program.tree.memberFullName h) returnType
  have hbound := kinded_bindArguments hparameters hpassed (hd₀.enterCall (l.program.tree.memberFullName h)
    (String.ofList (simpleName (l.program.tree.method h).name.toList)) returnType
    ((resultVariable (l.program.tree.memberFullName h) returnType d₁).1.map Prod.fst))
  have hd₂ := (steps_kinded kinded_noExpansion (l.program.tree.memberFullName h) returnType).stmt
    (hstmts code hcode returnType htype) hrun hbound
  have hleave := (hd₀.ofFrame hd₂).relink (.leaveCall d₂ (l.program.tree.memberFullName h) _)
  refine ⟨hleave, ?_⟩
  cases returnType with
  | none => exact ⟨none, "", htype, rfl⟩
  | some type => exact ⟨some type, _, htype, rfl⟩

end Lowering

end Fabric
