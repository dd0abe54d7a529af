import Fabric.Proofs.Construction.Steps
import Fabric.Proofs.Synthesis.Planned

namespace Fabric

namespace Stmt

def newNames : Stmt → List String
  | .declare _ name _ _ => [name]
  | .parallel _ _ _ _ results => results.toList
  | _ => []

def declaredNames (s : Stmt) : List String :=
  s.nodes.flatMap newNames

theorem declaredNames_child {s c : Stmt} (hc : c ∈ s.children) :
    c.declaredNames ⊆ s.declaredNames := by
  intro x hx
  obtain ⟨t, ht, hx⟩ := List.mem_flatMap.1 hx
  exact List.mem_flatMap.2 ⟨t, nodes_subset_of_mem_children hc ht, hx⟩

theorem newNames_subset (s : Stmt) : s.newNames ⊆ s.declaredNames :=
  fun _ hx ↦ List.mem_flatMap.2 ⟨s, s.mem_nodes_self, hx⟩

def CallsAmong (nodes : List Expr) (s : Stmt) : Prop :=
  ∀ e ∈ s.exprNodes, e.containsCall = true → e ∈ nodes

variable {nodes : List Expr} {s : Stmt}

theorem CallsAmong.child (h : s.CallsAmong nodes) {c : Stmt} (hc : c ∈ s.children) :
    c.CallsAmong nodes := by
  intro e he
  obtain ⟨t, ht, he⟩ := List.mem_flatMap.1 he
  exact h e (List.mem_flatMap.2 ⟨t, nodes_subset_of_mem_children hc ht, he⟩)

theorem CallsAmong.expr (h : s.CallsAmong nodes) {e : Expr} (he : e ∈ s.exprs) :
    e.CallsAmong nodes := fun n hn ↦
  h n (List.mem_flatMap.2 ⟨s, s.mem_nodes_self, List.mem_flatMap.2 ⟨e, he, hn⟩⟩)

theorem callsAmong_nil (h : s.containsCall = false) : s.CallsAmong [] := by
  intro e he hcall
  obtain ⟨t, ht, hte⟩ := List.mem_flatMap.1 he
  obtain ⟨x, hx, hex⟩ := List.mem_flatMap.1 hte
  obtain ⟨n, hn, hcall⟩ := List.any_eq_true.1 hcall
  have hmem : n ∈ s.exprNodes :=
    List.mem_flatMap.2 ⟨t, ht, List.mem_flatMap.2 ⟨x, hx, Expr.nodes_subset hex hn⟩⟩
  rw [containsCall, List.any_eq_true.2 ⟨n, hmem, hcall⟩] at h
  cases h

end Stmt

namespace SyntaxTree

variable {t : SyntaxTree}

def exprNodes (t : SyntaxTree) : List Expr :=
  t.bodies.flatMap Stmt.exprNodes

theorem mem_bodies {h : MemberHandle} {s : Stmt} (hs : (t.method h).body = some s) :
    s ∈ t.bodies := by
  obtain ⟨d, hd, hm⟩ := exists_type_of_mem_handles (Lowering.mem_handles_of_body hs)
  exact List.mem_flatMap.2 ⟨d, hd, List.mem_filterMap.2 ⟨_, hm, hs⟩⟩

theorem callsAmong_exprNodes {h : MemberHandle} {s : Stmt} (hs : (t.method h).body = some s) :
    s.CallsAmong t.exprNodes :=
  fun _ he _ ↦ List.mem_flatMap.2 ⟨s, mem_bodies hs, he⟩

end SyntaxTree

def Lowering.ownNames (l : Lowering) : List String :=
  let m := l.program.tree.method l.member.handle
  m.parameters.map Parameter.name ++ m.body.toList.flatMap Stmt.declaredNames

/-- The steps of which lowering consists. Results are recorded for the given nodes, and variables of
the member at hand are declared under the given names. -/
inductive Lowering.Works (l : Lowering) (nodes : List Expr) (own : List String) :
    Draft → Draft → Prop
  | same {d d' : Draft} : d.SameNames d' → Works l nodes own d d'
  | trans {d d' d'' : Draft} :
      Works l nodes own d d' → Works l nodes own d' d'' → Works l nodes own d d''
  | temporary (d : Draft) (type : HwType) (comment : String) :
      Works l nodes own d (d.temporary type comment).2
  | declare {d : Draft} {name : String} (type : HwType) (comment : String) :
      (d.frame.qualifier = "" → name ∈ own) →
      Works l nodes own d ((d.declare name type comment).2.bind name
        (.variable (d.declare name type comment).1 type))
  | index (d : Draft) (name : String) (value : Nat) :
      Works l nodes own d
        (d.bind name (.constant (.int (Int64.ofNat value) (.signed 32)) (.signed 32)))
  | restore {d d' : Draft} :
      Works l nodes own d d' → Works l nodes own d (d'.withLocals d.frame.locals)
  | call {d : Draft} {e : Expr} {h : MemberHandle} {args : List Expr} {type : Option HwType}
      {name : String} : e ∈ nodes → l.callee e = .ok (h, args) → l.resultType h = .ok type →
      Works l nodes own d (d.setResult e.id (type.map (.ofVariable name)))
  | guarded {d d' : Draft} {e : Expr} {type : HwType} {name : String} :
      e ∈ nodes → e.isGuarded → l.infer d e = .ok type → Works l nodes own d d' →
      Works l nodes own d (d'.setResult e.id (some (.ofVariable name type)))
  | expanded {d d' : Draft} {callee simpleName : String} {returnType : Option HwType}
      {returnVariable : Option String} :
      Works l nodes own (d.enterCall callee simpleName returnType returnVariable) d' →
      Works l nodes own d { d' with frame := d.frame }

namespace Lowering

variable {l : Lowering} {nodes : List Expr} {own : List String} {expand : Expansion}
  {d d' : Draft}

namespace Works

theorem refl (d : Draft) : l.Works nodes own d d :=
  .same ⟨rfl, rfl, rfl, rfl, rfl⟩

theorem ofLearns (h : l.Learns (l.Works nodes own) nodes d d') : l.Works nodes own d d' := by
  induction h with
  | same hs => exact .same hs
  | trans _ _ ih ih' => exact ih.trans ih'
  | temporary d type comment => exact .temporary d type comment
  | call he hcallee htype => exact .call he hcallee htype
  | guarded he hguarded htype _ ih => exact .guarded he hguarded htype ih
  | expanded hinner => exact .expanded hinner

theorem qualifier (h : l.Works nodes own d d') : d'.frame.qualifier = d.frame.qualifier := by
  induction h with
  | same hs => exact hs.qualifier
  | trans _ _ ih ih' => exact ih'.trans ih
  | declare type comment =>
    unfold Draft.declare
    dsimp only
    split <;> rfl
  | restore _ ih | guarded _ _ _ _ ih => exact ih
  | temporary | index | call | expanded => rfl

end Works

theorem works_expr {e : Expr} {v : Lowered} (h : l.expr e d = .ok (v, d')) :
    l.Works nodes own d d' :=
  .ofLearns (learns_expr h)

section

variable (hexpand : expand.Learns l (l.Works nodes own))

include hexpand

theorem works_prepare {e : Expr} (hcalls : e.CallsAmong nodes)
    (h : l.prepare expand e d = .ok d') : l.Works nodes own d d' :=
  .ofLearns (learns_prepare hexpand hcalls h)

end

theorem works_copies {h : MemberHandle} {group : NodeId} {args : List Expr} {index : String}
    {first count : Nat} {calls : List Invocation}
    (hc : l.copies h group args index first count d = .ok (calls, d')) :
    l.Works nodes own d d' := by
  induction count generalizing first d calls with
  | zero =>
    obtain ⟨-, rfl⟩ := Prod.mk.inj (Except.ok.inj hc)
    exact .refl d
  | succ count ih =>
    obtain ⟨c, d₁, others, hcall, hothers, rfl⟩ := copies_eq_ok hc
    exact ((Works.index d index first).trans (.ofLearns (learns_invocation hcall).1)).trans
      (ih hothers)

theorem works_resultArray {h : MemberHandle} {results : String} {count : UInt32}
    {array : String × HwType} (hown : d.frame.qualifier = "" → results ∈ own)
    (hr : l.resultArray h results count d = .ok (array, d')) : l.Works nodes own d d' := by
  obtain ⟨-, -, rfl⟩ | ⟨-, -, -, rfl⟩ := resultArray_eq_ok hr
  · exact .refl _
  · exact .declare _ _ hown

theorem works_storeResults (array : String) (element : HwType) (values : List (Option Lowered))
    (d : Draft) : l.Works nodes own d (storeResults array element values d) :=
  storeResults_induction (motive := l.Works nodes own d) (.refl d) fun _ _ _ _ hd ↦
    hd.trans (.same ⟨rfl, rfl, rfl, rfl, rfl⟩)

theorem works_parallel {group : NodeId} {count : Expr} {index : String} {call : Expr}
    {results : Option String} (hown : d.frame.qualifier = "" → results.toList ⊆ own)
    (hp : l.parallel group count index call results d = .ok d') : l.Works nodes own d d' := by
  obtain ⟨number, h, args, batch, d₁, -, -, -, hbatch, hp⟩ := parallel_eq_ok hp
  have hcopies : l.Works nodes own d (d₁.withLocals d.frame.locals) :=
    .restore (works_copies hbatch)
  have hshake := hcopies.trans (.ofLearns (learns_handshake batch _).1)
  obtain ⟨-, rfl⟩ | ⟨name, array, element, d₃, rfl, harray, rfl⟩ := hp
  · exact hshake
  · rw [← hshake.qualifier] at hown
    have hname : l.Works nodes own _ d₃ :=
      works_resultArray (fun hq ↦ hown hq List.mem_cons_self) harray
    exact (hshake.trans hname).trans (works_storeResults _ _ _ _)

/-- Lowering a statement is work on the given nodes and names, if its calls and names are among
them. -/
def WorksOut (l : Lowering) (expand : Expansion) (nodes : List Expr) (own : List String)
    (s : Stmt) : Prop :=
  ∀ {d d' : Draft}, s.CallsAmong nodes → (d.frame.qualifier = "" → s.declaredNames ⊆ own) →
    l.stmt expand s d = .ok d' → l.Works nodes own d d'

/-- The steps in which statements are lowered are work, where the names of the member at hand start with
the given qualifier. -/
theorem nameSteps_works (hexpand : expand.Learns l (l.Works nodes own)) (qualifier : String) :
    l.NameSteps expand (fun s ↦ s.CallsAmong nodes ∧ (qualifier = "" → s.declaredNames ⊆ own))
      fun d d' ↦ d.frame.qualifier = qualifier → l.Works nodes own d d' where
  child hs hc := ⟨hs.1.child hc, fun hq ↦ List.Subset.trans (Stmt.declaredNames_child hc) (hs.2 hq)⟩
  trans h h' hq :=
    have hfirst := h hq
    hfirst.trans (h' (hfirst.qualifier.trans hq))
  alike h _ := .same ⟨h.declarations, h.temporaries, h.results, by rw [h.frame], by rw [h.frame]⟩
  prepare hs he h _ := works_prepare hexpand (hs.1.expr he) h
  expr h _ := works_expr h
  bind {id name type init t d d'} comment hs _ h hq := by
    have hwork := h hq
    refine hwork.trans (.declare t comment fun hd ↦ hs.2 (hq.symm.trans (hwork.qualifier.symm.trans hd)) ?_)
    exact Stmt.newNames_subset (.declare id name type init) List.mem_cons_self
  parallel {id count index call results d d'} hs h hq :=
    works_parallel (fun hd ↦ List.Subset.trans
      (Stmt.newNames_subset (.parallel id count index call results)) (hs.2 (hq.symm.trans hd))) h

theorem worksOut_stmt (hexpand : expand.Learns l (l.Works nodes own)) (s : Stmt) :
    l.WorksOut expand nodes own s :=
  fun hcalls hown h ↦ (nameSteps_works hexpand _).steps.stmt ⟨hcalls, hown⟩ h rfl

/-- The arguments of an expanded call become variables that have qualified names. -/
theorem works_bindArguments (callee : String) (arguments : List Argument) {d : Draft}
    (hq : d.frame.qualifier ≠ "") : l.Works nodes own d (d.bindArguments callee arguments) := by
  unfold Draft.bindArguments
  induction arguments generalizing d with
  | nil => exact .refl d
  | cons a rest ih =>
    rw [List.foldl_cons]
    let x := d.declare a.name a.type ("parameter " ++ a.name ++ " of " ++ callee)
    have hname : l.Works nodes own d (x.2.bind a.name (.variable x.1 a.type)) :=
      .declare a.type _ fun h ↦ absurd h hq
    have hset := x.2.sameScope_emit (.setVariable x.1 (a.value.coerce a.type)) a.value.cost
    have hvalue : l.Works nodes own (x.2.bind a.name (.variable x.1 a.type))
        ((x.2.emit (.setVariable x.1 (a.value.coerce a.type)) a.value.cost).bind a.name
          (.variable x.1 a.type)) := by
      refine .same ⟨hset.declarations, ?_, hset.results, ?_, ?_⟩
      · exact x.2.temporaries_emit (.setVariable x.1 (a.value.coerce a.type)) a.value.cost
      · change (x.2.emit _ _).frame.qualifier = x.2.frame.qualifier
        rw [hset.frame]
      · change _ :: (x.2.emit _ _).frame.locals = _ :: x.2.frame.locals
        rw [hset.frame]
    have hstep := hname.trans hvalue
    refine hstep.trans (ih ?_)
    rw [hstep.qualifier]
    exact hq

theorem qualifier_enterCall (d : Draft) (callee simpleName : String) (returnType : Option HwType)
    (returnVariable : Option String) :
    (d.enterCall callee simpleName returnType returnVariable).frame.qualifier ≠ "" := by
  intro h
  have hlists := congrArg String.toList h
  have heq : (d.enterCall callee simpleName returnType returnVariable).frame.qualifier =
      simpleName ++ "." ++ toString (d.expansions + 1) ++ "." := rfl
  rw [heq, String.toList_append] at hlists
  exact absurd hlists (by simp)

theorem works_expandBody
    (hcalls : ∀ h, l.plan.isInlined h → ∀ s, (l.program.tree.method h).body = some s →
      s.CallsAmong nodes) :
    Expansion.Learns l (l.Works nodes own) (l.expand (l.stmt noExpansion)) := by
  refine learns_expand fun {h code callee simpleName returnType returnVariable arguments d d'}
    hin hcode hrun ↦ ?_
  have hq := qualifier_enterCall d callee simpleName returnType returnVariable
  have hbind : l.Works nodes own (d.enterCall callee simpleName returnType returnVariable) _ :=
    works_bindArguments callee arguments hq
  refine hbind.trans (worksOut_stmt learns_noExpansion code (hcalls h hin code hcode) ?_ hrun)
  rw [hbind.qualifier]
  exact fun h ↦ absurd h hq

/-- Lowering the body of the planned member is work on the calls of the program and the names of the
member. -/
theorem works_body {code : Stmt} (hcode : (l.program.tree.method l.member.handle).body = some code)
    (h : l.body code d = .ok d') : l.Works l.program.tree.exprNodes l.ownNames d d' := by
  refine worksOut_stmt (works_expandBody fun _ _ _ hs ↦ SyntaxTree.callsAmong_exprNodes hs) code
    (SyntaxTree.callsAmong_exprNodes hcode) (fun _ ↦ ?_) h
  refine List.Subset.trans ?_ (List.subset_append_right _ _)
  rw [hcode, Option.toList_some, List.flatMap_singleton]
  exact List.Subset.refl _

end Lowering

end Fabric
