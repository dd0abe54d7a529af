import Fabric.Proofs.Construction.Inference
import Fabric.Proofs.Construction.Working

namespace Fabric

namespace Lowering

variable {l : Lowering} {nodes : List Expr} {own : List String} {d d' : Draft}

/-- A draft that is reached while the planned member is lowered: it is made from the first states of
the member by the steps of which lowering consists, and perhaps in the frames of expanded calls. -/
inductive Reached (l : Lowering) : Draft → Prop
  | start (returnType : Option HwType) (parameters : List ComponentPin) :
      Reached l ((Draft.empty l.member.fullName returnType).begin parameters)
  | work {d d' : Draft} : Reached l d → l.Works l.program.tree.exprNodes l.ownNames d d' →
      Reached l d'
  | enter {d : Draft} (callee simpleName : String) (returnType : Option HwType)
      (returnVariable : Option String) :
      Reached l d → Reached l (d.enterCall callee simpleName returnType returnVariable)

end Lowering

namespace Draft.Regular

variable {d d' : Draft}

theorem setResult (hd : d.Regular) (id : NodeId) (name : String) (type : Option HwType) :
    (d.setResult id (type.map (.ofVariable name))).Regular where
  locals := hd.locals
  results i r hr := by
    unfold Draft.result? Draft.setResult at hr
    rw [List.lookup_cons] at hr
    split at hr
    · exact ⟨name, type, (Option.some.inj hr).symm⟩
    · exact hd.results i r hr

theorem bind (hd : d.Regular) (name : String) {b : Binding} (hb : (∃ x type, b = .variable x type) ∨
    ∃ n, b = .constant (.int n (.signed 32)) (.signed 32)) : (d.bind name b).Regular where
  locals y c hc := by
    unfold Draft.binding? Draft.bind Draft.withLocals at hc
    rw [List.lookup_cons] at hc
    split at hc
    · obtain rfl := Option.some.inj hc
      exact hb
    · exact hd.locals y c hc
  results := hd.results

theorem ofLocals (hd : d.Regular) (hd' : d'.Regular) {d₁ : Draft}
    (hl : d₁.frame.locals = d.frame.locals) (hr : d₁.results = d'.results) : d₁.Regular where
  locals name b hb := by
    unfold Draft.binding? at hb
    rw [hl] at hb
    exact hd.locals name b hb
  results id r h := by
    unfold Draft.result? at h
    rw [hr] at h
    exact hd'.results id r h

theorem enterCall (hd : d.Regular) (callee simpleName : String) (returnType : Option HwType)
    (returnVariable : Option String) :
    (d.enterCall callee simpleName returnType returnVariable).Regular where
  locals name b hb := by cases hb
  results := hd.results

theorem sameValues_declare (d : Draft) (name : String) (type : HwType) (comment : String) :
    d.SameValues (d.declare name type comment).2 := by
  unfold Draft.declare
  dsimp only
  split <;> exact ⟨rfl, rfl⟩

theorem declare (hd : d.Regular) (name : String) (type : HwType) (comment : String) :
    ((d.declare name type comment).2.bind name
      (.variable (d.declare name type comment).1 type)).Regular :=
  ((sameValues_declare d name type comment).regular hd).bind name (.inl ⟨_, _, rfl⟩)

theorem ofWorks {l : Lowering} {nodes : List Expr} {own : List String} (hd : d.Regular)
    (h : l.Works nodes own d d') : d'.Regular := by
  induction h with
  | same hs => exact Draft.SameValues.regular ⟨hs.locals, hs.results⟩ hd
  | trans _ _ ih ih' => exact ih' (ih hd)
  | temporary => exact ⟨hd.locals, hd.results⟩
  | declare type comment => exact hd.declare _ type comment
  | index d name value => exact hd.bind name (.inr ⟨_, rfl⟩)
  | restore _ ih => exact hd.ofLocals (ih hd) rfl rfl
  | call => exact hd.setResult _ _ _
  | @guarded d d' e type name _ _ _ _ ih => exact (ih hd).setResult e.id name (some type)
  | @expanded d d' callee simpleName returnType returnVariable _ ih =>
    exact hd.ofLocals (ih (hd.enterCall callee simpleName returnType returnVariable)) rfl rfl

end Draft.Regular

namespace Lowering

variable {l : Lowering} {nodes : List Expr} {own : List String} {d d' : Draft}

theorem results_begin (member : String) (returnType : Option HwType)
    (parameters : List ComponentPin) :
    ((Draft.empty member returnType).begin parameters).results = [] := by
  have htake (d : Draft) : (parameters.foldl Draft.takeParameter d).results = d.results := by
    induction parameters generalizing d with
    | nil => rfl
    | cons p rest ih =>
      exact (ih _).trans (Draft.Regular.sameValues_declare d p.name p.type _).results
  rw [Draft.begin_eq, htake]
  rfl

theorem regular_begin (member : String) (returnType : Option HwType)
    (parameters : List ComponentPin) :
    ((Draft.empty member returnType).begin parameters).Regular := by
  have htake (d : Draft) (hd : d.Regular) : (parameters.foldl Draft.takeParameter d).Regular := by
    induction parameters generalizing d with
    | nil => exact hd
    | cons p rest ih =>
      have hname := hd.declare p.name p.type ("parameter " ++ p.name)
      exact ih _ ⟨hname.locals, hname.results⟩
  rw [Draft.begin_eq]
  refine htake _ ⟨?_, ?_⟩
  · intro name b hb
    cases hb
  · intro id r hr
    cases hr

/-- In a draft that is reached, names stand for variables or indices and results are in variables. -/
theorem Reached.regular (h : l.Reached d) : d.Regular := by
  induction h with
  | start returnType parameters => exact regular_begin _ returnType parameters
  | work _ hw ih => exact ih.ofWorks hw
  | enter callee simpleName returnType returnVariable _ ih => exact ih.enterCall _ _ _ _

def Apart (nodes : List Expr) : Prop :=
  ∀ m ∈ nodes, ∀ n ∈ nodes, m.id = n.id → m = n

def Recorded (l : Lowering) (nodes : List Expr) (d : Draft) : Prop :=
  ∀ n ∈ nodes, n.isCall = true → ∀ r, d.result? n.id = some r →
    ∃ h args, l.callee n = .ok (h, args) ∧ l.Returns h r

theorem result?_setResult_self (d : Draft) (id : NodeId) (r : Option Lowered) :
    (d.setResult id r).result? id = some r :=
  List.lookup_cons_self

theorem result?_setResult_ne {id i : NodeId} (h : i ≠ id) (d : Draft) (r : Option Lowered) :
    (d.setResult id r).result? i = d.result? i := by
  unfold Draft.result? Draft.setResult
  rw [List.lookup_cons, beq_false_of_ne h]

theorem Recorded.ofResults (hd : l.Recorded nodes d) (hr : d'.results = d.results) :
    l.Recorded nodes d' := by
  intro n hn hcall r h
  unfold Draft.result? at h
  rw [hr] at h
  exact hd n hn hcall r h

theorem Recorded.setResult (hd : l.Recorded nodes d) (hapart : Apart nodes) {e : Expr}
    (he : e ∈ nodes) {r : Option Lowered}
    (hr : e.isCall = true → ∃ h args, l.callee e = .ok (h, args) ∧ l.Returns h r) :
    l.Recorded nodes (d.setResult e.id r) := by
  intro n hn hcall r' h
  by_cases heq : n.id = e.id
  · obtain rfl := hapart n hn e he heq
    rw [result?_setResult_self] at h
    obtain rfl := Option.some.inj h
    exact hr hcall
  · rw [result?_setResult_ne heq] at h
    exact hd n hn hcall r' h

theorem not_isCall_of_isGuarded {e : Expr} (h : e.isGuarded = true) : ¬e.isCall = true := by
  cases e with
  | conditional | binary => exact Bool.false_ne_true
  | _ => cases h

theorem Recorded.ofWorks (hd : l.Recorded nodes d) (hapart : Apart nodes)
    (h : l.Works nodes own d d') : l.Recorded nodes d' := by
  induction h with
  | same hs => exact hd.ofResults hs.results
  | trans _ _ ih ih' => exact ih' (ih hd)
  | temporary | index => exact hd.ofResults rfl
  | declare type comment =>
    exact hd.ofResults (Draft.Regular.sameValues_declare _ _ type comment).results
  | restore _ ih => exact (ih hd).ofResults rfl
  | call he hcallee htype =>
    exact hd.setResult hapart he fun _ ↦ ⟨_, _, hcallee, _, _, htype, rfl⟩
  | guarded he hguarded _ _ ih =>
    exact (ih hd).setResult hapart he fun hcall ↦ absurd hcall (not_isCall_of_isGuarded hguarded)
  | expanded _ ih => exact (ih (hd.ofResults rfl)).ofResults rfl

theorem Reached.recorded (h : l.Reached d) (hapart : Apart l.program.tree.exprNodes) :
    l.Recorded l.program.tree.exprNodes d := by
  induction h with
  | start returnType parameters =>
    intro n _ _ r hr
    unfold Draft.result? at hr
    rw [results_begin] at hr
    cases hr
  | work _ hw ih => exact ih.ofWorks hapart hw
  | enter => exact Recorded.ofResults ‹_› rfl

/-- What is inferred about a call is the type that the called member declares. -/
theorem infer_call {e : Expr} {h : MemberHandle} {args : List Expr} {type : Option HwType}
    (hcallee : l.callee e = .ok (h, args)) (htype : l.resultType h = .ok type)
    (hr : ∀ r, d.result? e.id = some r → ∃ name, r = type.map (.ofVariable name)) :
    l.infer d e = l.require "use of a void call result" type := by
  cases e with
  | call id target arguments =>
    obtain ⟨h', htarget, hcallee⟩ := Synthesis.bind_eq_ok.1 hcallee
    obtain ⟨rfl, -⟩ := Prod.mk.inj (Except.ok.inj hcallee)
    have htarget := require_eq_ok.1 htarget
    rw [infer]
    cases hresult : d.result? (Expr.call id target arguments).id with
    | none =>
      dsimp only
      rw [htarget]
      change l.resultType _ >>= _ = _
      rw [htype]
      rfl
    | some r =>
      obtain ⟨name, rfl⟩ := hr r hresult
      cases type <;> rfl
  | _ => cases hcallee

/-- A result of the type that is inferred anyway changes nothing in what is inferred. -/
theorem infer_setResult (hapart : Apart nodes) {e : Expr} (he : e ∈ nodes) {r : Option Lowered}
    (hinfer : l.infer (d.setResult e.id r) e = l.infer d e) {n : Expr} (hn : n.nodes ⊆ nodes) :
    l.infer (d.setResult e.id r) n = l.infer d n := by
  induction n using Expr.induction_children with
  | step n ih =>
    have hmem := hn n.mem_nodes_self
    have hchild : ∀ c ∈ n.children, l.infer (d.setResult e.id r) c = l.infer d c := fun c hc ↦
      ih c hc (List.Subset.trans (Expr.nodes_subset_of_mem_children hc) hn)
    by_cases heq : n.id = e.id
    · rw [hapart n hmem e he heq, hinfer]
    · have hresult := result?_setResult_ne heq d r
      cases n with
      | literal | getField | newArray | arrayLength | cast | call =>
        rw [infer, infer, hresult]
      | getLocal id name | getParameter id name =>
        rw [infer, infer, hresult]
        rfl
      | unary id op operand =>
        rw [infer, infer, hresult, hchild operand List.mem_cons_self]
      | binary id op lhs rhs =>
        rw [infer, infer, hresult, hchild lhs (by simp [Expr.children]),
          hchild rhs (by simp [Expr.children])]
      | arrayElement id array index =>
        rw [infer, infer, hresult, hchild array List.mem_cons_self]
      | conditional id condition ifTrue ifFalse =>
        rw [infer, infer, hresult, hchild ifTrue (by simp [Expr.children]),
          hchild ifFalse (by simp [Expr.children])]

theorem infer_learns (hapart : Apart nodes) (hclosed : ∀ n ∈ nodes, n.nodes ⊆ nodes)
    (h : l.Learns (fun d d' ↦ d'.results = d.results) nodes d d') (hd : l.Recorded nodes d) :
    l.Recorded nodes d' ∧ ∀ n : Expr, n.nodes ⊆ nodes → l.infer d' n = l.infer d n := by
  induction h with
  | same hs =>
    exact ⟨hd.ofResults hs.results, fun n _ ↦ Draft.SameValues.infer l ⟨hs.locals, hs.results⟩ n⟩
  | trans _ _ ih ih' =>
    obtain ⟨hd₁, h₁⟩ := ih hd
    obtain ⟨hd₂, h₂⟩ := ih' hd₁
    exact ⟨hd₂, fun n hn ↦ (h₂ n hn).trans (h₁ n hn)⟩
  | temporary d type comment =>
    have hsame : d.SameValues (d.temporary type comment).2 := ⟨rfl, rfl⟩
    exact ⟨hd.ofResults rfl, fun n _ ↦ hsame.infer l n⟩
  | @call d e h args type name he hcallee htype =>
    refine ⟨hd.setResult hapart he fun _ ↦ ⟨_, _, hcallee, _, _, htype, rfl⟩, fun n hn ↦ ?_⟩
    have hcall : e.isCall = true := by
      cases e with
      | call => rfl
      | _ => cases hcallee
    refine infer_setResult hapart he ?_ hn
    rw [infer_call hcallee htype, infer_call hcallee htype]
    · intro r hr
      obtain ⟨h', args', hcallee', type', name', htype', rfl⟩ := hd e he hcall r hr
      obtain ⟨rfl, -⟩ := Prod.mk.inj (Except.ok.inj (hcallee.symm.trans hcallee'))
      obtain rfl := Except.ok.inj (htype.symm.trans htype')
      exact ⟨name', rfl⟩
    · intro r hr
      rw [result?_setResult_self] at hr
      exact ⟨name, (Option.some.inj hr).symm⟩
  | @guarded d d' e type name he hguarded htype _ ih =>
    obtain ⟨hd', hinfer⟩ := ih hd
    refine ⟨hd'.setResult hapart he fun hcall ↦ absurd hcall (not_isCall_of_isGuarded hguarded),
      fun n hn ↦ ?_⟩
    refine (infer_setResult hapart he ?_ hn).trans (hinfer n hn)
    rw [hinfer e (hclosed e he), htype, infer.eq_def, result?_setResult_self]
    rfl
  | @expanded d d' _ _ _ _ hinner =>
    have hsame : d.SameValues { d' with frame := d.frame } := ⟨rfl, hinner⟩
    exact ⟨hd.ofResults hinner, fun n _ ↦ hsame.infer l n⟩

theorem results_of_works (h : l.Works [] own d d') : d'.results = d.results := by
  induction h with
  | same hs => exact hs.results
  | trans _ _ ih ih' => exact ih'.trans ih
  | declare type comment => exact (Draft.Regular.sameValues_declare _ _ type comment).results
  | restore _ ih | expanded _ ih => exact ih
  | temporary | index => rfl
  | call he | guarded he => cases he

/-- Expanding members without calls records no results for the nodes in them. -/
theorem quiet_expandBody (hcalls : ∀ h, l.plan.isInlined h → ∀ s,
    (l.program.tree.method h).body = some s → s.containsCall = false) :
    Expansion.Learns l (fun d d' ↦ d'.results = d.results) (l.expand (l.stmt noExpansion)) := by
  refine learns_expand fun {h code callee simpleName returnType returnVariable arguments d d'}
    hin hcode hrun ↦ ?_
  have hq := qualifier_enterCall d callee simpleName returnType returnVariable
  have hbind : l.Works [] [] (d.enterCall callee simpleName returnType returnVariable) _ :=
    works_bindArguments callee arguments hq
  refine results_of_works (hbind.trans (worksOut_stmt learns_noExpansion code
    (Stmt.callsAmong_nil (hcalls h hin code hcode)) ?_ hrun))
  rw [hbind.qualifier]
  exact fun h ↦ absurd h hq

end Lowering

namespace SyntaxTree

open scoped List

variable {t : SyntaxTree}

theorem map_id_exprNodes (t : SyntaxTree) : t.exprNodes.map Expr.id <+ t.ids := by
  have hstmt (s : Stmt) : s.exprNodes.map Expr.id <+ s.ids := by
    unfold Stmt.exprNodes Stmt.ids
    rw [List.map_flatMap]
    refine List.Sublist.flatMap_right _ fun u _ ↦ ?_
    rw [List.map_flatMap]
    exact List.sublist_cons_self _ _
  have hmethod (m : MethodDecl) :
      (m.body.toList.flatMap Stmt.exprNodes).map Expr.id <+ m.ids := by
    rw [List.map_flatMap]
    exact (List.Sublist.flatMap_right _ fun s _ ↦ hstmt s).trans (List.sublist_cons_self _ _)
  have hbodies (ms : List MethodDecl) : (ms.filterMap MethodDecl.body).flatMap Stmt.exprNodes =
      ms.flatMap fun m ↦ m.body.toList.flatMap Stmt.exprNodes := by
    rw [← List.flatMap_assoc, List.filterMap_eq_flatMap_toList]
  unfold exprNodes bodies ids
  rw [List.flatMap_assoc, List.map_flatMap]
  refine List.Sublist.flatMap_right _ fun d _ ↦ ?_
  rw [hbodies, List.map_flatMap]
  refine (List.Sublist.flatMap_right _ fun m _ ↦ hmethod m).trans ?_
  exact (List.sublist_append_right _ _).trans (List.sublist_cons_self _ _)

theorem apart_exprNodes (hids : t.ids.Nodup) : Lowering.Apart t.exprNodes :=
  fun _ hm _ hn heq ↦ List.inj_on_of_nodup_map (t.map_id_exprNodes.nodup hids) hm hn heq

theorem nodes_subset_exprNodes {e : Expr} (he : e ∈ t.exprNodes) : e.nodes ⊆ t.exprNodes := by
  obtain ⟨s, hs, he⟩ := List.mem_flatMap.1 he
  obtain ⟨u, hu, he⟩ := List.mem_flatMap.1 he
  obtain ⟨x, hx, he⟩ := List.mem_flatMap.1 he
  intro n hn
  exact List.mem_flatMap.2 ⟨s, hs, List.mem_flatMap.2 ⟨u, hu,
    List.mem_flatMap.2 ⟨x, hx, Expr.nodes_subset he hn⟩⟩⟩

end SyntaxTree

end Fabric
