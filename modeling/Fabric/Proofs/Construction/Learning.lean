import Fabric.Proofs.Construction.Member
import Fabric.Proofs.Construction.Prepare
import Fabric.Proofs.Source.Knowledge

namespace Fabric

def Expr.CallsAmong (nodes : List Expr) (e : Expr) : Prop :=
  ∀ n ∈ e.nodes, n.containsCall = true → n ∈ nodes

theorem Expr.CallsAmong.of_mem {nodes : List Expr} {e c : Expr} (h : e.CallsAmong nodes)
    (hc : c ∈ e.nodes) : c.CallsAmong nodes :=
  fun n hn ↦ h n (nodes_subset hc hn)

theorem Expr.containsCall_of_isCall {e : Expr} (h : e.isCall = true) : e.containsCall = true :=
  List.any_eq_true.2 ⟨e, e.mem_nodes_self, h⟩

theorem Expr.containsCall_of_child {e c : Expr} (hc : c ∈ e.children) (h : c.containsCall = true) :
    e.containsCall = true := by
  obtain ⟨n, hn, hcall⟩ := List.any_eq_true.1 h
  exact List.any_eq_true.2 ⟨n, nodes_subset_of_mem_children hc hn, hcall⟩

theorem Expr.containsCall_of_isGuarded {e : Expr} (h : e.isGuarded = true) :
    e.containsCall = true := by
  cases e with
  | conditional id condition ifTrue ifFalse =>
    rcases Bool.or_eq_true_iff.1 h with h | h
    · exact containsCall_of_child (by simp [children]) h
    · exact containsCall_of_child (by simp [children]) h
  | binary id op lhs rhs =>
    exact containsCall_of_child (by simp [children]) (Bool.and_eq_true_iff.1 h).2
  | _ => cases h

structure Draft.SameNames (d d' : Draft) : Prop where
  declarations : d'.declarations = d.declarations
  temporaries : d'.temporaries = d.temporaries
  results : d'.results = d.results
  qualifier : d'.frame.qualifier = d.frame.qualifier
  locals : d'.frame.locals = d.frame.locals

theorem Draft.SameNames.ofScope {d d' : Draft} (hs : d.SameScope d')
    (ht : d'.temporaries = d.temporaries) : d.SameNames d' :=
  ⟨hs.declarations, ht, hs.results, by rw [hs.frame], by rw [hs.frame]⟩

/-- The steps in which a draft learns about the given nodes. What happens inside an expanded call is
as `Inner` says, and the frame around the call is kept. -/
inductive Lowering.Learns (l : Lowering) (Inner : Draft → Draft → Prop) (nodes : List Expr) :
    Draft → Draft → Prop
  | same {d d' : Draft} : d.SameNames d' → Learns l Inner nodes d d'
  | trans {d d' d'' : Draft} :
      Learns l Inner nodes d d' → Learns l Inner nodes d' d'' → Learns l Inner nodes d d''
  | temporary (d : Draft) (type : HwType) (comment : String) :
      Learns l Inner nodes d (d.temporary type comment).2
  | call {d : Draft} {e : Expr} {h : MemberHandle} {args : List Expr} {type : Option HwType}
      {name : String} : e ∈ nodes → l.callee e = .ok (h, args) → l.resultType h = .ok type →
      Learns l Inner nodes d (d.setResult e.id (type.map (.ofVariable name)))
  | guarded {d d' : Draft} {e : Expr} {type : HwType} {name : String} :
      e ∈ nodes → e.isGuarded → l.infer d e = .ok type → Learns l Inner nodes d d' →
      Learns l Inner nodes d (d'.setResult e.id (some (.ofVariable name type)))
  | expanded {d d' : Draft} {callee simpleName : String} {returnType : Option HwType}
      {returnVariable : Option String} :
      Inner (d.enterCall callee simpleName returnType returnVariable) d' →
      Learns l Inner nodes d { d' with frame := d.frame }

/-- A value is the result of a call of the member: it is in a variable of the type that the member
declares. -/
def Lowering.Returns (l : Lowering) (h : MemberHandle) (value : Option Lowered) : Prop :=
  ∃ type name, l.resultType h = .ok type ∧ value = type.map (.ofVariable name)

def Expansion.Learns (l : Lowering) (Inner : Draft → Draft → Prop) (expand : Expansion) : Prop :=
  ∀ {h : MemberHandle} {args : List Expr} {d d' : Draft} {value : Option Lowered},
    l.plan.isInlined h → expand h args d = .ok (value, d') →
    (∀ nodes, l.Learns Inner nodes d d') ∧ l.Returns h value

namespace Lowering

variable {l : Lowering} {Inner : Draft → Draft → Prop} {nodes : List Expr} {expand : Expansion}
  {d d' : Draft}

namespace Learns

theorem refl (d : Draft) : l.Learns Inner nodes d d :=
  .same ⟨rfl, rfl, rfl, rfl, rfl⟩

theorem emit (d : Draft) (s : HwStmt) (cost : Binary64) :
    l.Learns Inner nodes d (d.emit s cost) :=
  .same (.ofScope (d.sameScope_emit s cost) (d.temporaries_emit s cost))

theorem reserve (d : Draft) (cost : Binary64) : l.Learns Inner nodes d (d.reserve cost) :=
  .same (.ofScope (d.sameScope_reserve cost) (d.temporaries_reserve cost))

theorem openState (d : Draft) (label : String) : l.Learns Inner nodes d (d.openState label) :=
  .same (.ofScope (d.sameScope_openState label) (d.temporaries_openState label))

theorem fork (d : Draft) (label : String) :
    l.Learns Inner nodes d ((d.addState label).enter d.nextState) :=
  .same ⟨rfl, rfl, rfl, rfl, rfl⟩

theorem join (d : Draft) (label : String) (source : Nat) (t : Transition DraftTarget)
    (exits : List Nat) : l.Learns Inner nodes d (d.join label source t exits) :=
  .same (.ofScope (d.sameScope_join label source t exits)
    (Draft.temporaries_linkAll exits d.nextState ((d.addState label).setTransition source t)))

end Learns

section

variable {R : Draft → Draft → Prop} (hrefl : ∀ d, R d d)
  (htrans : ∀ {d d' d''}, R d d' → R d' d'' → R d d'')
  (hchoice : ∀ (d : Draft) (type : HwType) (c a b : HwExpr) (cost : Binary64),
    R d ((d.temporary type "conditional value").2.emit
      (.branch c [.setVariable (tempName d.temporaries) a] [.setVariable (tempName d.temporaries) b])
      cost))

include hrefl htrans hchoice

/-- Evaluating an expression is made of choices between the values of conditionals. -/
theorem expr_choices {e : Expr} {v : Lowered} (h : l.expr e d = .ok (v, d')) : R d d' := by
  rw [expr_eq_ok] at h
  induction h with
  | known | literal | getLocal | getParameter | newArray | arrayLength => exact hrefl _
  | unary _ _ _ ih | cast _ _ _ _ ih => exact ih
  | binary _ _ _ _ iha ihb | arrayElement _ _ _ _ iha ihb => exact htrans iha ihb
  | conditional _ _ _ _ _ _ _ ihc iha ihb =>
    have hoperands := htrans (htrans ihc iha) ihb
    exact htrans hoperands (hchoice _ _ _ _ _ _)

theorem evalArguments_choices {callee : String} {params : List (Parameter × Expr)}
    {arguments : List Argument} (ha : l.evalArguments callee params d = .ok (arguments, d')) :
    R d d' := by
  induction params generalizing arguments d with
  | nil =>
    obtain ⟨-, rfl⟩ := Prod.mk.inj (Except.ok.inj ha)
    exact hrefl _
  | cons p rest ih =>
    obtain ⟨type, v, d₁, others, -, hv, hothers, -⟩ := evalArguments_eq_ok ha
    exact htrans (expr_choices hrefl htrans hchoice hv) (ih hothers)

end

theorem Learns.choice (d : Draft) (type : HwType) (c a b : HwExpr) (cost : Binary64) :
    l.Learns Inner nodes d ((d.temporary type "conditional value").2.emit
      (.branch c [.setVariable (tempName d.temporaries) a] [.setVariable (tempName d.temporaries) b])
      cost) :=
  (Learns.temporary d type _).trans (.emit _ _ _)

theorem learns_expr {e : Expr} {v : Lowered} (h : l.expr e d = .ok (v, d')) :
    l.Learns Inner nodes d d' :=
  expr_choices .refl .trans .choice h

theorem learns_arguments {h : MemberHandle} {args : List Expr} {arguments : List Argument}
    (ha : l.arguments h args d = .ok (arguments, d')) : l.Learns Inner nodes d d' :=
  evalArguments_choices .refl .trans .choice (arguments_eq_ok ha).2

theorem learns_settleArguments (callee : String) (arguments : List Argument) (d : Draft) :
    l.Learns Inner nodes d (Draft.settleArguments callee arguments d).2 := by
  induction arguments generalizing d with
  | nil => exact .refl d
  | cons a rest ih =>
    unfold Draft.settleArguments
    dsimp only
    split
    · exact ((Learns.temporary d a.type _).trans (.emit _ _ _)).trans (ih _)
    · exact ih d

theorem learns_invocation {h : MemberHandle} {group : NodeId} {args : List Expr} {c : Invocation}
    (hi : l.invocation h group args d = .ok (c, d')) :
    l.Learns Inner nodes d d' ∧ l.resultType h = .ok c.returnType := by
  obtain ⟨slot, d₁, arguments, d₂, type, hslot, harguments, htype, rfl, rfl⟩ := invocation_eq_ok hi
  obtain ⟨-, -, rfl⟩ := takeSlot_eq hslot
  have hslot : l.Learns Inner nodes d
      { d with slots := ((group, l.program.tree.memberFullName h), slot + 1) :: d.slots } :=
    .same ⟨rfl, rfl, rfl, rfl, rfl⟩
  exact ⟨(hslot.trans (learns_arguments harguments)).trans (learns_settleArguments _ _ _), htype⟩

def Serves (l : Lowering) (calls : List Expr) (id : NodeId) (type : Option HwType) : Prop :=
  ∃ e ∈ calls, e.id = id ∧ ∃ h args, l.callee e = .ok (h, args) ∧ l.resultType h = .ok type

theorem learns_gather (hexpand : expand.Learns l Inner) {calls : List Expr} (hsub : calls ⊆ nodes)
    {batch : List (NodeId × Invocation)} (hg : l.gather expand calls d = .ok (batch, d')) :
    l.Learns Inner nodes d d' ∧ ∀ x ∈ batch, l.Serves nodes x.1 x.2.returnType := by
  induction calls generalizing d batch with
  | nil =>
    obtain ⟨rfl, rfl⟩ := Prod.mk.inj (Except.ok.inj hg)
    exact ⟨.refl _, List.forall_mem_nil _⟩
  | cons e rest ih =>
    obtain ⟨he, hrest⟩ := List.cons_subset.1 hsub
    obtain ⟨h, args, hcallee, ⟨hin, value, d₁, hvalue, hg⟩ | ⟨-, group, c, d₁, others, -, hc, hothers, rfl⟩⟩ :=
      gather_eq_ok hg
    · obtain ⟨hlearn, type, name, htype, rfl⟩ := hexpand hin hvalue
      obtain ⟨hothers, hserves⟩ := ih hrest hg
      exact ⟨((hlearn nodes).trans (.call he hcallee htype)).trans hothers, hserves⟩
    · obtain ⟨hfirst, htype⟩ := learns_invocation hc
      obtain ⟨hlearn, hserves⟩ := ih hrest hothers
      refine ⟨hfirst.trans hlearn, List.forall_mem_cons.2 ⟨?_, hserves⟩⟩
      exact ⟨e, he, rfl, h, args, hcallee, htype⟩

def Collected (calls : List Invocation) (values : List (Option Lowered)) : Prop :=
  List.Forall₂ (fun c value ↦ ∃ name, value = c.returnType.map (.ofVariable name)) calls values

theorem learns_collect (calls : List Invocation) (d : Draft) :
    l.Learns Inner nodes d (Draft.collect calls d).2 ∧
      Collected calls (Draft.collect calls d).1 := by
  induction calls generalizing d with
  | nil => exact ⟨.refl d, .nil⟩
  | cons c rest ih =>
    have hpush (d : Draft) (s : HwStmt) : l.Learns Inner nodes d (d.push s) :=
      .same ⟨rfl, rfl, rfl, rfl, rfl⟩
    unfold Draft.collect
    cases hc : c.returnType with
    | none =>
      obtain ⟨hlearn, hvalues⟩ := ih (d.push (.drive (c.pin .started) (.bool false)))
      exact ⟨(hpush d _).trans hlearn, .cons ⟨"", by rw [hc]; rfl⟩ hvalues⟩
    | some type =>
      let d₁ := (d.temporary type ("result of " ++ c.target)).2.push
        (.setVariable (d.temporary type ("result of " ++ c.target)).1 (.signal (c.pin .result)))
      obtain ⟨hlearn, hvalues⟩ := ih (d₁.push (.drive (c.pin .started) (.bool false)))
      have hfirst : l.Learns Inner nodes d d₁ := (Learns.temporary d type _).trans (hpush _ _)
      exact ⟨(hfirst.trans (hpush d₁ _)).trans hlearn, .cons ⟨_, by rw [hc]; rfl⟩ hvalues⟩

theorem learns_handshake (calls : List Invocation) (d : Draft) :
    l.Learns Inner nodes d (d.handshake calls).2 ∧ Collected calls (d.handshake calls).1 := by
  obtain ⟨label, heq⟩ := d.handshake_eq calls
  have hawait (d : Draft) : l.Learns Inner nodes d (d.awaitCalls calls label) :=
    .same ⟨rfl, rfl, rfl, rfl, rfl⟩
  rw [heq]
  obtain ⟨hlearn, hvalues⟩ := learns_collect calls
    ((d.openState (label "await idle")).awaitCalls calls label)
  exact ⟨((Learns.openState d _).trans (hawait _)).trans hlearn, hvalues⟩

theorem learns_setResults {batch : List (NodeId × Invocation)} {values : List (Option Lowered)}
    (hvalues : Collected (batch.map Prod.snd) values)
    (hserves : ∀ x ∈ batch, l.Serves nodes x.1 x.2.returnType) (d : Draft) :
    l.Learns Inner nodes d
      (((batch.map Prod.fst).zip values).foldl (fun d x ↦ d.setResult x.1 x.2) d) := by
  induction batch generalizing values d with
  | nil => exact .refl d
  | cons x rest ih =>
    obtain ⟨value, values, ⟨name, rfl⟩, hrest, rfl⟩ := List.forall₂_cons_left_iff.1 hvalues
    obtain ⟨⟨e, he, hid, h, args, hcallee, htype⟩, hothers⟩ := List.forall_mem_cons.1 hserves
    rw [List.map_cons, List.zip_cons_cons, List.foldl_cons, ← hid]
    exact (Learns.call he hcallee htype).trans (ih hrest hothers _)

theorem learns_invoke (hexpand : expand.Learns l Inner) {calls : List Expr} (hsub : calls ⊆ nodes)
    (hi : l.invoke expand calls d = .ok d') : l.Learns Inner nodes d d' := by
  obtain ⟨batch, d₁, hbatch, hd'⟩ := invoke_eq_ok hi
  obtain ⟨hfirst, hserves⟩ := learns_gather hexpand hsub hbatch
  obtain ⟨-, rfl⟩ | ⟨-, rfl⟩ := hd'
  · exact hfirst
  · obtain ⟨hshake, hvalues⟩ := learns_handshake (batch.map Prod.snd) d₁
    exact (hfirst.trans hshake).trans (learns_setResults hvalues hserves _)

theorem learns_storeIn {name : String} {type : HwType} {prepare : Expr → Draft → Synthesis Draft}
    {e : Expr} (hprepare : ∀ {d d' : Draft}, prepare e d = .ok d' → l.Learns Inner nodes d d')
    (h : l.storeIn name type prepare e d = .ok d') : l.Learns Inner nodes d d' := by
  obtain ⟨d₁, v, d₂, h₁, h₂, rfl⟩ := storeIn_eq_ok h
  exact ((hprepare h₁).trans (learns_expr h₂)).trans (.emit _ _ _)

theorem learns_guarded {prepare : Expr → Draft → Synthesis Draft} {e : Expr} (he : e ∈ nodes)
    (hguarded : e.isGuarded) (hev : d.isEvaluated e = false)
    (hprepare : ∀ c ∈ e.children, ∀ {d d' : Draft}, prepare c d = .ok d' →
      l.Learns Inner nodes d d')
    (h : l.guarded prepare e d = .ok d') : l.Learns Inner nodes d d' := by
  cases guarded_eq_ok h with
  | @conditional id condition ifTrue ifFalse type c d₁ d₂ d₃ htype hc htrue hfalse =>
    have hready : l.Learns Inner nodes d (d₁.reserve c.cost) :=
      ((Learns.temporary d type _).trans (learns_expr hc)).trans (.reserve _ _)
    have h₁ := learns_storeIn (hprepare ifTrue (by simp [Expr.children])) htrue
    have h₂ := learns_storeIn (hprepare ifFalse (by simp [Expr.children])) hfalse
    have hbranches := ((hready.trans (.fork _ _)).trans h₁).trans ((Learns.fork _ _).trans h₂)
    exact .guarded he hguarded htype (hbranches.trans (.join d₃ _ _ _ _))
  | @binary id op lhs rhs left d₁ d₀ d₂ hleft hemit hright =>
    have hlogical : op.isLogical = true := by
      rw [Expr.isGuarded, Bool.and_eq_true] at hguarded
      exact hguarded.1
    have hinfer : l.infer d (.binary id op lhs rhs) = .ok .boolean := by
      have hr : d.result? id = none := by simpa [Draft.isEvaluated, Expr.id] using hev
      rw [infer]
      simp only [Expr.id, hr, hlogical, Bool.or_true, if_true]
    have hready : l.Learns Inner nodes d d₀ := hemit ▸
      ((Learns.temporary d .boolean "short-circuit value").trans (learns_expr hleft)).trans
        (.emit _ _ _)
    have hbranch : l.Learns Inner nodes d d₂ := (hready.trans (.fork _ _)).trans
      (learns_storeIn (hprepare rhs (by simp [Expr.children])) hright)
    exact .guarded he hguarded hinfer (hbranch.trans (.join d₂ _ _ _ [_]))

theorem learns_prepareUpTo (hexpand : expand.Learns l Inner) (rounds : Nat) {e : Expr}
    (hsub : e.CallsAmong nodes) (h : l.prepareUpTo expand rounds e d = .ok d') :
    l.Learns Inner nodes d d' := by
  induction rounds generalizing e d d' with
  | zero =>
    obtain rfl := Except.ok.inj h
    exact .refl _
  | succ rounds ih =>
    have hready := d.apt_ready e
    obtain ⟨-, rfl⟩ | ⟨g, d₁, heq, hg, h⟩ | ⟨d₁, -, hcalls, h⟩ := prepareUpTo_eq_ok h
    · exact .refl _
    · obtain ⟨hmem, hguarded, hev, -⟩ := hready.guarded g (by rw [heq]; rfl)
      have hnode := hsub g hmem (Expr.containsCall_of_isGuarded hguarded)
      refine (learns_guarded hnode hguarded hev (fun c hc _ _ hrun ↦ ih ?_ hrun) hg).trans
        (ih hsub h)
      exact (hsub.of_mem hmem).of_mem (Expr.nodes_subset_of_mem_children hc c.mem_nodes_self)
    · refine (learns_invoke hexpand ?_ hcalls).trans (ih hsub h)
      exact fun x hx ↦ hsub x (hready.sub.subset hx)
        (Expr.containsCall_of_isCall (hready.calls x hx).1)

/-- Preparing an expression is done in steps that learn about its nodes. -/
theorem learns_prepare (hexpand : expand.Learns l Inner) {e : Expr} (hsub : e.CallsAmong nodes)
    (h : l.prepare expand e d = .ok d') : l.Learns Inner nodes d d' :=
  learns_prepareUpTo hexpand _ hsub h

theorem learns_noExpansion : Expansion.Learns l Inner noExpansion := by
  intro h args d d' value _ he
  cases he

/-- Expanding a call changes drafts in the frame of the callee as lowering its body does. -/
theorem learns_expand {body : Stmt → Draft → Synthesis Draft}
    (hbody : ∀ {h : MemberHandle} {code : Stmt} {callee simpleName : String}
      {returnType : Option HwType} {returnVariable : Option String} {arguments : List Argument}
      {d d' : Draft}, l.plan.isInlined h → (l.program.tree.method h).body = some code →
      body code ((d.enterCall callee simpleName returnType returnVariable).bindArguments callee
        arguments) = .ok d' →
      Inner (d.enterCall callee simpleName returnType returnVariable) d') :
    Expansion.Learns l Inner (l.expand body) := by
  intro h args d d' value hin he
  obtain ⟨code, arguments, d₁, returnType, d₂, hcode, harguments, htype, hrun, rfl, rfl⟩ :=
    expand_eq he
  refine ⟨fun nodes ↦ ?_, ?_⟩
  · have hvariable : l.Learns Inner nodes d₁
        (resultVariable (l.program.tree.memberFullName h) returnType d₁).2 := by
      cases returnType with
      | none => exact .refl d₁
      | some type => exact .temporary d₁ type _
    have hinner : l.Learns Inner nodes _ { d₂ with frame := _ } :=
      .expanded (hbody hin hcode hrun)
    refine (((learns_arguments harguments).trans hvariable).trans hinner).trans (.same ?_)
    refine .ofScope (Draft.sameScope_leaveCall d₂ _ _) ?_
    rw [Draft.leaveCall_eq]
    split
    · rfl
    · exact Draft.temporaries_linkAll d₂.callExits d₂.nextState _
  · cases returnType with
    | none => exact ⟨none, "", htype, rfl⟩
    | some type => exact ⟨some type, _, htype, rfl⟩

end Lowering

end Fabric
