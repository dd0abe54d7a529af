import Fabric.Proofs.Construction.Afforded
import Fabric.Proofs.Construction.Later
import Fabric.Proofs.Construction.Steps

namespace Fabric

/-- The parts of a loop: what is done before it, its condition, what is done after its body, and its
body. -/
def Stmt.loop? : Stmt → Option (Option Stmt × Option Expr × Option Stmt × Stmt)
  | .whileLoop _ condition body => some (none, some condition, none, body)
  | .forLoop _ init condition step body => some (init, condition, step, body)
  | _ => none

theorem Move.written {Γ : Interface} {s t : Site} (h : Move Γ s t) :
    s.code.written ⊆ t.code.written := by
  cases h with
  | push => exact Code.written_extend _ _ _
  | suspend | leave | ret | resume | release => exact List.Subset.refl _
  | fork =>
    rw [Code.written_append]
    exact List.subset_append_left _ _
  | settle =>
    rw [Code.written_redirect]
    exact List.Subset.refl _
  | exchange =>
    rw [Code.written_append, Code.written_redirect]
    exact List.subset_append_left _ _

theorem Moves.written {Γ : Interface} {s t : Site} (h : Moves Γ s t) :
    s.code.written ⊆ t.code.written := by
  induction h with
  | refl => exact List.Subset.refl _
  | tail _ hm ih => exact List.Subset.trans ih hm.written

namespace Draft

structure Persists (d d' : Draft) : Prop where
  declarations : d.declarations ⊆ d'.declarations
  written : d.written ⊆ d'.written

namespace Persists

variable {d d' d'' : Draft}

theorem refl (d : Draft) : d.Persists d := ⟨List.Subset.refl _, List.Subset.refl _⟩

theorem trans (h : d.Persists d') (h' : d'.Persists d'') : d.Persists d'' :=
  ⟨List.Subset.trans h.declarations h'.declarations, List.Subset.trans h.written h'.written⟩

theorem setTransition (d : Draft) (i : Nat) (t : Transition DraftTarget) :
    d.Persists (d.setTransition i t) := by
  refine ⟨List.Subset.refl _, ?_⟩
  rw [Draft.written, Draft.written, code_setTransition, Code.written_redirect]
  exact List.Subset.refl _

theorem addState (d : Draft) (label : String) : d.Persists (d.addState label) := by
  refine ⟨List.Subset.refl _, ?_⟩
  rw [Draft.written, Draft.written, code_addState, Code.written_append]
  exact List.subset_append_left _ _

theorem enter (d : Draft) (i : Nat) : d.Persists (d.enter i) :=
  ⟨List.Subset.refl _, List.Subset.refl _⟩

theorem linkAll (sources : List Nat) (target : Nat) (d : Draft) :
    d.Persists (d.linkAll sources target) := by
  induction sources generalizing d with
  | nil => exact refl d
  | cons i rest ih => exact (setTransition d i _).trans (ih (d.link i target))

theorem fork (d : Draft) (label : String) :
    d.Persists ((d.addState label).enter d.nextState) :=
  (addState d label).trans (enter _ _)

theorem join (d : Draft) (label : String) (source : Nat) (t : Transition DraftTarget)
    (exits : List Nat) : d.Persists (d.join label source t exits) :=
  (((addState d label).trans (setTransition _ source t)).trans (linkAll exits _ _)).trans
    (enter _ _)

end Persists

end Draft

namespace Lowering

variable (l : Lowering) (expand : Expansion)

/-- Lowering a statement in a draft comes to a statement in another draft. -/
inductive ComesTo : Stmt → Draft → Stmt → Draft → Prop
  | here (s : Stmt) (d : Draft) : ComesTo s d s d
  | thenBranch {id : NodeId} {condition : Expr} {thenBranch : Stmt} {elseBranch : Option Stmt}
      {c : HwExpr} {d d₁ e : Draft} {u : Stmt} :
      d.isClosed = false → l.condition expand condition d = .ok (c, d₁) →
      ComesTo thenBranch ((d₁.addState "if: then").enter d₁.nextState) u e →
      ComesTo (.branch id condition thenBranch elseBranch) d u e
  | elseBranch {id : NodeId} {condition : Expr} {thenBranch s : Stmt} {c : HwExpr}
      {d d₁ d₂ e : Draft} {u : Stmt} :
      d.isClosed = false → l.condition expand condition d = .ok (c, d₁) →
      l.stmt expand thenBranch ((d₁.addState "if: then").enter d₁.nextState) = .ok d₂ →
      ComesTo s ((d₂.addState "if: else").enter d₂.nextState) u e →
      ComesTo (.branch id condition thenBranch (some s)) d u e
  | init {s i body u : Stmt} {condition : Option Expr} {step : Option Stmt} {d e : Draft} :
      s.loop? = some (some i, condition, step, body) → d.isClosed = false →
      ComesTo i d u e → ComesTo s d u e
  | body {s body u : Stmt} {condition : Option Expr} {init step : Option Stmt} {c : Option HwExpr}
      {d d₀ d₁ e : Draft} :
      s.loop? = some (init, condition, step, body) → d.isClosed = false →
      l.stmtOption expand init d = .ok d₀ → d₀.isClosed = false →
      l.loopCondition expand condition (d₀.openState "loop: head") = .ok (c, d₁) →
      ComesTo body (d₁.beginBody "loop: body") u e → ComesTo s d u e
  | step {s t body u : Stmt} {condition : Option Expr} {init : Option Stmt} {c : Option HwExpr}
      {d d₀ d₁ d₂ e : Draft} {exits : LoopExits} {loops : List LoopExits} :
      s.loop? = some (init, condition, some t, body) → d.isClosed = false →
      l.stmtOption expand init d = .ok d₀ → d₀.isClosed = false →
      l.loopCondition expand condition (d₀.openState "loop: head") = .ok (c, d₁) →
      l.stmt expand body (d₁.beginBody "loop: body") = .ok d₂ → d₂.loops = exits :: loops →
      ComesTo t (((d₂.endBody loops).addState "loop: step").enter d₂.nextState) u e →
      ComesTo s d u e
  | block {id : NodeId} {before after : List Stmt} {s u : Stmt} {d d₁ e : Draft} :
      d.isClosed = false → l.stmtList expand before d = .ok d₁ → ComesTo s d₁ u e →
      ComesTo (.block id (before ++ s :: after)) d u e

variable {l expand} {Γ : Interface} {s u : Stmt} {d e d' : Draft} {L : Multiset Nat}
  {init step : Option Stmt} {condition : Option Expr} {body : Stmt}

theorem children_of_loop (h : s.loop? = some (init, condition, step, body)) :
    s.children = init.toList ++ body :: step.toList ∧ s.exprs = condition.toList := by
  cases s with
  | whileLoop | forLoop =>
    cases h
    exact ⟨rfl, rfl⟩
  | _ => cases h

theorem stmt_of_loop (l : Lowering) (expand : Expansion) (d : Draft)
    (h : s.loop? = some (init, condition, step, body)) :
    ∃ id, l.stmt expand s d = l.stmt expand (.forLoop id init condition step body) d := by
  cases s with
  | whileLoop id c b =>
    cases h
    exact ⟨id, stmt_whileLoop _ _ _ _⟩
  | forLoop id i c t b =>
    cases h
    exact ⟨id, rfl⟩
  | _ => cases h

theorem condition_of_loop (h : s.loop? = some (init, condition, step, body)) :
    s.condition? = condition := by
  cases s with
  | whileLoop | forLoop =>
    cases h
    rfl
  | _ => cases h

theorem ComesTo.mem (h : l.ComesTo expand s d u e) : u ∈ s.nodes := by
  induction h with
  | here s d => exact s.mem_nodes_self
  | thenBranch _ _ _ ih => exact Stmt.nodes_subset_of_mem_children (by simp [Stmt.children]) ih
  | elseBranch _ _ _ _ ih => exact Stmt.nodes_subset_of_mem_children (by simp [Stmt.children]) ih
  | init hloop _ _ ih =>
    exact Stmt.nodes_subset_of_mem_children (by simp [(children_of_loop hloop).1]) ih
  | body hloop _ _ _ _ _ ih =>
    exact Stmt.nodes_subset_of_mem_children (by simp [(children_of_loop hloop).1]) ih
  | step hloop _ _ _ _ _ _ _ ih =>
    exact Stmt.nodes_subset_of_mem_children (by simp [(children_of_loop hloop).1]) ih
  | block _ _ _ ih => exact Stmt.nodes_subset_of_mem_children (by simp [Stmt.children]) ih

theorem ComesTo.first (id : NodeId) (rest : List Stmt) (ho : d.isClosed = false) :
    l.ComesTo expand (.block id (u :: rest)) d u d :=
  have h : l.ComesTo expand (.block id ([] ++ u :: rest)) d u d :=
    .block ho (by rw [stmtList]) (.here u d)
  h

theorem Steps.beginLoop {S : Stmt → Prop} {I : Draft → Prop} {C : HwExpr → Prop}
    {R : Draft → Draft → Prop} (hsteps : l.Steps expand S I C R) (hs : S s)
    (hloop : s.loop? = some (init, condition, step, body)) {d₀ d₁ : Draft} {c : Option HwExpr}
    (hinit : l.stmtOption expand init d = .ok d₀)
    (hcondition : l.loopCondition expand condition (d₀.openState "loop: head") = .ok (c, d₁)) :
    R d (d₁.beginBody "loop: body") := by
  have hfirst := hsteps.stmtOption (fun x hx _ _ ↦ hsteps.stmt (hsteps.child hs (by
    simpa [(children_of_loop hloop).1] using .inl hx))) hinit
  rw [← condition_of_loop hloop] at hcondition
  have hhead := hsteps.trans (hsteps.relink (.openState d₀ _))
    (hsteps.loopCondition hs hcondition).1
  have hbegin : R d₁ (d₁.beginBody "loop: body") := hsteps.relink
    ((Draft.Relinks.fork d₁ "loop: body").trans (.ofCode rfl rfl rfl rfl rfl))
  exact hsteps.trans (hsteps.trans hfirst hhead) hbegin

/-- What all steps of lowering establish, they establish up to where the course comes. -/
theorem ComesTo.steps {S : Stmt → Prop} {I : Draft → Prop} {C : HwExpr → Prop}
    {R : Draft → Draft → Prop} (hsteps : l.Steps expand S I C R) (h : l.ComesTo expand s d u e)
    (hs : S s) : S u ∧ R d e := by
  induction h with
  | here s d => exact ⟨hs, hsteps.refl d⟩
  | @thenBranch id condition thenBranch elseBranch c d d₁ e u ho hcondition _ ih =>
    obtain ⟨hu, hrest⟩ := ih (hsteps.child hs (by simp [Stmt.children]))
    have hfork := hsteps.relink (Draft.Relinks.fork d₁ "if: then")
    exact ⟨hu, hsteps.trans (hsteps.trans (hsteps.condition hs rfl hcondition).1 hfork) hrest⟩
  | @elseBranch id condition thenBranch s c d d₁ d₂ e u ho hcondition h₂ _ ih =>
    obtain ⟨hu, hrest⟩ := ih (hsteps.child hs (by simp [Stmt.children]))
    have hthen := hsteps.child hs (c := thenBranch) (by simp [Stmt.children])
    have hfork := hsteps.relink (Draft.Relinks.fork d₁ "if: then")
    have hfork' := hsteps.relink (Draft.Relinks.fork d₂ "if: else")
    have hfirst := hsteps.trans (hsteps.trans (hsteps.condition hs rfl hcondition).1 hfork)
      (hsteps.stmt hthen h₂)
    exact ⟨hu, hsteps.trans (hsteps.trans hfirst hfork') hrest⟩
  | @init s i body u condition step d e hloop _ _ ih =>
    exact ih (hsteps.child hs (by simp [(children_of_loop hloop).1]))
  | @body s body u condition init step c d d₀ d₁ e hloop ho hinit ho₀ hcondition _ ih =>
    obtain ⟨hu, hrest⟩ := ih (hsteps.child hs (by simp [(children_of_loop hloop).1]))
    exact ⟨hu, hsteps.trans (hsteps.beginLoop hs hloop hinit hcondition) hrest⟩
  | @step s t body u condition init c d d₀ d₁ d₂ e exits loops hloop ho hinit ho₀ hcondition h₂ hl _
      ih =>
    obtain ⟨hu, hrest⟩ := ih (hsteps.child hs (by simp [(children_of_loop hloop).1]))
    have hbody := hsteps.child hs (c := body) (by simp [(children_of_loop hloop).1])
    have hclose : R d₂ (d₂.endBody loops) := hsteps.relink (.ofCode rfl rfl rfl rfl rfl)
    have hend : R d₂ (((d₂.endBody loops).addState "loop: step").enter d₂.nextState) :=
      hsteps.trans hclose (hsteps.relink (.fork (d₂.endBody loops) "loop: step"))
    have hround := hsteps.trans (hsteps.beginLoop hs hloop hinit hcondition) (hsteps.stmt hbody h₂)
    exact ⟨hu, hsteps.trans (hsteps.trans hround hend) hrest⟩
  | @block id before after s u d d₁ e ho hbefore _ ih =>
    have hchild : ∀ x ∈ before ++ s :: after, S x := fun x hx ↦ hsteps.child hs hx
    obtain ⟨hu, hrest⟩ := ih (hchild s (by simp))
    exact ⟨hu, hsteps.trans (hsteps.stmtList (fun x hx _ _ ↦ hsteps.stmt (hchild x (by simp [hx])))
      hbefore) hrest⟩

theorem stmt_branch {id : NodeId} {thenBranch : Stmt} {elseBranch : Option Stmt} {e : Expr}
    (h : l.stmt expand (.branch id e thenBranch elseBranch) d = .ok d') (ho : d.isClosed = false) :
    ∃ c d₁ d₂ elseState elseExit d₃, l.condition expand e d = .ok (c, d₁) ∧
      l.stmt expand thenBranch ((d₁.addState "if: then").enter d₁.nextState) = .ok d₂ ∧
        l.elseStmt expand elseBranch d₂ = .ok (elseState, elseExit, d₃) ∧ d₃.Persists d' := by
  obtain ⟨c, d₁, d₂, elseState, elseExit, d₃, hc, h₂, h₃, rfl⟩ := branch_eq_ok h ho
  have hjoin := Draft.Persists.join d₃ "if: join" d₁.current (.branch c (.state d₁.nextState)
    (.state (elseState.getD d₃.nextState))) (d₂.exit?.toList ++ elseExit.toList)
  exact ⟨c, d₁, d₂, elseState, elseExit, d₃, hc, h₂, h₃, hjoin.declarations, hjoin.written⟩

end Lowering

namespace Draft

/-- What is made of a draft keeps its declarations, and if it is well typed and can be followed, then
what is made of it can be followed too and has everything that is written in it. -/
structure Advances (Γ : Interface) (d d' : Draft) : Prop where
  declared : d.declarations ⊆ d'.declarations
  proper : ∀ {L : Multiset Nat}, Γ.Covers d' → d.Proper Γ L →
    (∃ L', d'.Proper Γ L') ∧ d.written ⊆ d'.written

namespace Advances

variable {Γ : Interface} {d d' d'' : Draft}

theorem refl (d : Draft) : d.Advances Γ d :=
  ⟨List.Subset.refl _, fun _ hd ↦ ⟨⟨_, hd⟩, List.Subset.refl _⟩⟩

theorem trans (h : d.Advances Γ d') (h' : d'.Advances Γ d'') : d.Advances Γ d'' := by
  refine ⟨List.Subset.trans h.declared h'.declared, fun hc hd ↦ ?_⟩
  obtain ⟨⟨L, hd'⟩, hw⟩ := h.proper (List.Subset.trans h'.declared hc) hd
  obtain ⟨hd'', hw'⟩ := h'.proper hc hd'
  exact ⟨hd'', List.Subset.trans hw hw'⟩

theorem ofEvolves (h : Lowering.StmtEvolves Γ d d') : d.Advances Γ d' := by
  obtain ⟨B, C, R, he⟩ := h
  refine ⟨he.declared, fun hc hd ↦ ?_⟩
  obtain ⟨E, hg⟩ := hd.valid
  obtain ⟨E', hm⟩ := (he.run hc hd.typed).2 _ 0 E hg
  exact ⟨⟨_, (hd.evolve he hc).1⟩, hm.written⟩

theorem ofReaches {Q : Prop} (h : d.Reaches Γ True d' Q) : d.Advances Γ d' :=
  .ofEvolves (.ofReaches (h.conseq id fun _ _ ↦ trivial))

theorem fork (d : Draft) (label : String) :
    d.Advances Γ ((d.addState label).enter d.nextState) :=
  ⟨List.Subset.refl _, fun _ hd ↦ ⟨⟨_, hd.fork label⟩, (Persists.fork d label).written⟩⟩

theorem openState (ho : d.isClosed = false) (label : String) :
    d.Advances Γ (d.openState label) := by
  refine ⟨?_, fun _ hd ↦ ?_⟩
  · rw [(d.sameScope_openState label).declarations]
    exact List.Subset.refl _
  · obtain ⟨E, hm⟩ := d.moves_openState (Γ := Γ) (L := 0) (R := 0) (E := ∅) ho label
    exact ⟨⟨_, (hd.openState ho label).1⟩, hm.written⟩

theorem beginBody (d : Draft) (label : String) : d.Advances Γ (d.beginBody label) :=
  ⟨List.Subset.refl _, fun _ hd ↦ ⟨⟨_, hd.beginBody label⟩, (Persists.fork d label).written⟩⟩

theorem endBody {exits : LoopExits} {loops : List LoopExits} (hl : d.loops = exits :: loops) :
    d.Advances Γ (d.endBody loops) :=
  ⟨List.Subset.refl _, fun _ hd ↦ ⟨⟨_, hd.endBody hl⟩, List.Subset.refl _⟩⟩

/-- What is made in the middle can be followed from its start, and it stays. -/
theorem between {d₁ d₂ d₃ : Draft} {L : Multiset Nat} (hbefore : d.Advances Γ d₁)
    (h : d₁.Advances Γ d₂) (hafter : d₂.Advances Γ d₃) (hend : d₃.Persists d') (hc : Γ.Covers d')
    (hd : d.Proper Γ L) : Γ.Covers d₂ ∧ (∃ L', d₁.Proper Γ L') ∧ d₂.Persists d' := by
  have hc₃ : Γ.Covers d₃ := List.Subset.trans hend.declarations hc
  have hc₂ : Γ.Covers d₂ := List.Subset.trans hafter.declared hc₃
  obtain ⟨L₁, hd₁⟩ := (hbefore.proper (List.Subset.trans h.declared hc₂) hd).1
  obtain ⟨L₂, hd₂⟩ := (h.proper hc₂ hd₁).1
  exact ⟨hc₂, ⟨L₁, hd₁⟩, Persists.trans ⟨hafter.declared, (hafter.proper hc₃ hd₂).2⟩ hend⟩

end Advances

end Draft

namespace Lowering

variable {l : Lowering} {expand : Expansion} {Γ : Interface} {s u : Stmt} {d e d' : Draft}
  {L : Multiset Nat} {init step : Option Stmt} {condition : Option Expr} {body : Stmt}

theorem stmtList_append (before after : List Stmt) (d : Draft) :
    l.stmtList expand (before ++ after) d =
      l.stmtList expand before d >>= l.stmtList expand after := by
  induction before generalizing d with
  | nil => rw [List.nil_append, stmtList, Synthesis.ok_bind]
  | cons s before ih =>
    rw [List.cons_append, stmtList, stmtList, bind_assoc]
    exact congrArg _ (funext ih)

theorem parts_of_loop {d₀ : Draft} (hloop : s.loop? = some (init, condition, step, body))
    (ho : d.isClosed = false) (hinit : l.stmtOption expand init d = .ok d₀)
    (ho₀ : d₀.isClosed = false) (h : l.stmt expand s d = .ok d') :
    ∃ p : LoopParts l expand condition step body d₀ d', p.afterStep.Persists d' := by
  obtain ⟨id, hstmt⟩ := stmt_of_loop l expand d hloop
  rw [hstmt] at h
  obtain ⟨d₀', hinit', hparts⟩ := stmt_forLoop h ho
  obtain rfl := Except.ok.inj (hinit'.symm.trans hinit)
  obtain ⟨hclosed, -⟩ | ⟨-, ⟨p⟩⟩ := hparts
  · rw [ho₀] at hclosed
    cases hclosed
  · have hjoin := (Draft.Persists.linkAll (p.afterBody.exit?.toList ++ p.exits.continues) p.again
      p.afterStep).trans (.join _ "loop: exit" p.afterCondition.current
        (loopTransition p.c p.afterCondition.nextState p.afterStep.nextState) p.exits.breaks)
    rw [← p.eq] at hjoin
    exact ⟨p, hjoin⟩

section

variable (hΓ : Γ.Sees l) (hexpand : expand.Sound Γ)

include hΓ hexpand

theorem advances_stmt (hgroup : Γ.program.CallsGrouped → s.Grouped l.program)
    (h : l.stmt expand s d = .ok d') : d.Advances Γ d' :=
  .ofEvolves (evolves_stmt hΓ hexpand s hgroup h)

theorem advances_stmtOption {o : Option Stmt}
    (hgroup : ∀ s ∈ o, Γ.program.CallsGrouped → s.Grouped l.program)
    (h : l.stmtOption expand o d = .ok d') : d.Advances Γ d' := by
  obtain ⟨-, rfl⟩ | ⟨s, rfl, h⟩ := stmtOption_eq_ok h
  · exact .refl _
  · exact advances_stmt hΓ hexpand (hgroup s rfl) h

theorem advances_stmtList {ss : List Stmt}
    (hgroup : ∀ s ∈ ss, Γ.program.CallsGrouped → s.Grouped l.program)
    (h : l.stmtList expand ss d = .ok d') : d.Advances Γ d' :=
  rel_of_stmtList .refl .trans (fun s hs {_ _} ↦ advances_stmt hΓ hexpand (hgroup s hs)) h

theorem advances_elseStmt {o : Option Stmt} {elseState elseExit : Option Nat}
    (hgroup : ∀ s ∈ o, Γ.program.CallsGrouped → s.Grouped l.program)
    (h : l.elseStmt expand o d = .ok (elseState, elseExit, d')) : d.Advances Γ d' := by
  obtain ⟨-, -, -, rfl⟩ | ⟨s, rfl, -, -, h₁⟩ := elseStmt_eq_ok h
  · exact .refl _
  · exact (Draft.Advances.fork d "if: else").trans (advances_stmt hΓ hexpand (hgroup s rfl) h₁)

theorem advances_loopCondition
    (hgroup : ∀ x ∈ condition, Γ.program.CallsGrouped → x.Grouped l.program) {c : Option HwExpr}
    (ho : d.isClosed = false)
    (h : l.loopCondition expand condition (d.openState "loop: head") = .ok (c, d')) :
    d.Advances Γ (d'.beginBody "loop: body") :=
  ((Draft.Advances.openState ho "loop: head").trans (.ofReaches (reaches_loopCondition hΓ hexpand
    hgroup h (Draft.isClosed_openState ho _)))).trans (.beginBody d' "loop: body")

theorem advances_stepStmt {again head : Nat}
    (hgroup : ∀ s ∈ step, Γ.program.CallsGrouped → s.Grouped l.program)
    (h : l.stepStmt expand step head d = .ok (again, d')) :
    ∃ d₁, d.Advances Γ d₁ ∧ d₁.Persists d' ∧ ∀ s ∈ step,
      l.stmt expand s ((d.addState "loop: step").enter d.nextState) = .ok d₁ := by
  obtain ⟨rfl, -, rfl⟩ | ⟨s, d₁, rfl, -, h₁, rfl⟩ := stepStmt_eq_ok h
  · exact ⟨_, .refl _, .refl _, fun s hs ↦ by cases hs⟩
  · refine ⟨d₁, (Draft.Advances.fork d "loop: step").trans (advances_stmt hΓ hexpand (hgroup s rfl) h₁),
      .linkAll _ head d₁, fun x hx ↦ ?_⟩
    obtain rfl := Option.some.inj hx
    exact h₁

/-- Where the course comes, the draft can be followed, and the statement there is lowered to something
that stays. -/
theorem ComesTo.lowered (h : l.ComesTo expand s d u e)
    (hgroup : Γ.program.CallsGrouped → s.Grouped l.program) (hs : l.stmt expand s d = .ok d')
    (hc : Γ.Covers d') (hd : d.Proper Γ L) :
    ∃ e', l.stmt expand u e = .ok e' ∧ (∃ L', e.Proper Γ L') ∧ e'.Persists d' := by
  have hchild {s c : Stmt} (hgroup : Γ.program.CallsGrouped → s.Grouped l.program)
      (hmem : c ∈ s.children) (hp : Γ.program.CallsGrouped) : c.Grouped l.program :=
    (hgroup hp).child hmem
  -- The rest of the course goes on from a part of what was lowered, after which nothing is lost.
  have hrest {d₂ e e' d' : Draft} {u : Stmt} (hpersists : d₂.Persists d')
      (h : l.stmt expand u e = .ok e' ∧ (∃ L', e.Proper Γ L') ∧ e'.Persists d₂) :
      l.stmt expand u e = .ok e' ∧ (∃ L', e.Proper Γ L') ∧ e'.Persists d' :=
    ⟨h.1, h.2.1, h.2.2.trans hpersists⟩
  induction h generalizing d' L with
  | here s d => exact ⟨d', hs, ⟨L, hd⟩, .refl d'⟩
  | @thenBranch id condition thenBranch elseBranch c d d₁ e u ho hcondition _ ih =>
    obtain ⟨c', d₁', d₂, elseState, elseExit, d₃, hcondition', h₂, h₃, hjoin⟩ := stmt_branch hs ho
    obtain ⟨-, rfl⟩ := Prod.mk.inj (Except.ok.inj (hcondition'.symm.trans hcondition))
    have h₁ := Draft.Advances.ofReaches (reaches_condition hΓ hexpand
      (fun hp ↦ (hgroup hp).expr (by simp [Stmt.exprs])) hcondition ho)
    have hthen := hchild hgroup (c := thenBranch) (by simp [Stmt.children])
    have helse := advances_elseStmt hΓ hexpand
      (fun x hx ↦ hchild hgroup (by simpa [Stmt.children] using .inr hx)) h₃
    obtain ⟨hc₂, ⟨L₁, hd₁⟩, hpersists⟩ := (h₁.trans (.fork d₁' "if: then")).between
      (advances_stmt hΓ hexpand hthen h₂) helse hjoin hc hd
    obtain ⟨e', he'⟩ := ih hthen h₂ hc₂ hd₁
    exact ⟨e', hrest hpersists he'⟩
  | @elseBranch id condition thenBranch s c d d₁ d₂ e u ho hcondition hthen _ ih =>
    obtain ⟨c', d₁', d₂', elseState, elseExit, d₃, hcondition', h₂, h₃, hjoin⟩ := stmt_branch hs ho
    obtain ⟨-, rfl⟩ := Prod.mk.inj (Except.ok.inj (hcondition'.symm.trans hcondition))
    obtain rfl := Except.ok.inj (h₂.symm.trans hthen)
    have h₁ := Draft.Advances.ofReaches (reaches_condition hΓ hexpand
      (fun hp ↦ (hgroup hp).expr (by simp [Stmt.exprs])) hcondition ho)
    have hfirst := hchild hgroup (c := thenBranch) (by simp [Stmt.children])
    have hsecond := hchild hgroup (c := s) (by simp [Stmt.children])
    obtain ⟨hnone, -⟩ | ⟨s', hsome, -, -, h₄⟩ := elseStmt_eq_ok h₃
    · cases hnone
    obtain rfl := Option.some.inj hsome
    obtain ⟨hc₄, ⟨L₁, hd₁⟩, hpersists⟩ := (((h₁.trans (.fork d₁' "if: then")).trans
      (advances_stmt hΓ hexpand hfirst h₂)).trans (.fork d₂' "if: else")).between
      (advances_stmt hΓ hexpand hsecond h₄) (.refl d₃) hjoin hc hd
    obtain ⟨e', he'⟩ := ih hsecond h₄ hc₄ hd₁
    exact ⟨e', hrest hpersists he'⟩
  | @init s i body u condition step d e hloop ho _ ih =>
    obtain ⟨id, hstmt⟩ := stmt_of_loop l expand d hloop
    obtain ⟨hchildren, hexprs⟩ := children_of_loop hloop
    rw [hstmt] at hs
    obtain ⟨d₀, h₀, hparts⟩ := stmt_forLoop hs ho
    rw [stmtOption] at h₀
    have hi := hchild hgroup (c := i) (by simp [hchildren])
    have hafter : d₀.Advances Γ d' := by
      obtain ⟨-, rfl⟩ | ⟨ho₀, ⟨p⟩⟩ := hparts
      · exact .refl _
      · refine .ofEvolves (evolves_loop hΓ hexpand (fun x hx hp ↦ (hgroup hp).expr ?_)
          (fun x hx {_ _} ↦ evolves_stmt hΓ hexpand x (hchild hgroup ?_))
          (fun {_ _} ↦ evolves_stmt hΓ hexpand body (hchild hgroup ?_)) p ho₀)
        · rw [hexprs]
          exact Option.mem_toList.2 hx
        · simpa [hchildren] using .inr (.inr hx)
        · simp [hchildren]
    obtain ⟨hc₀, ⟨L₁, hd₁⟩, hpersists⟩ := (Draft.Advances.refl d).between
      (advances_stmt hΓ hexpand hi h₀) hafter (.refl d') hc hd
    obtain ⟨e', he'⟩ := ih hi h₀ hc₀ hd₁
    exact ⟨e', hrest hpersists he'⟩
  | @body s body u condition init step c d d₀ d₁ e hloop ho hinit ho₀ hcondition _ ih =>
    obtain ⟨hchildren, hexprs⟩ := children_of_loop hloop
    obtain ⟨⟨c', d₁', d₂, exits, loops, again, d₃, hcondition', h₂, hl, h₃, heq⟩, hjoin⟩ :=
      parts_of_loop hloop ho hinit ho₀ hs
    obtain ⟨-, rfl⟩ := Prod.mk.inj (Except.ok.inj (hcondition'.symm.trans hcondition))
    have hbody := hchild hgroup (c := body) (by simp [hchildren])
    have h₀ := advances_stmtOption hΓ hexpand (fun x hx ↦ hchild hgroup
      (by simpa [hchildren] using .inl hx)) hinit
    have h₁ := advances_loopCondition hΓ hexpand (fun x hx hp ↦ (hgroup hp).expr
      (by simpa [hexprs, eq_comm] using hx)) ho₀ hcondition
    obtain ⟨d₄, h₄, hpersists, -⟩ := advances_stepStmt hΓ hexpand (fun x hx ↦ hchild hgroup
      (by simpa [hchildren] using .inr (.inr hx))) h₃
    obtain ⟨hc₂, ⟨L₁, hd₁⟩, hpersists⟩ := (h₀.trans h₁).between (advances_stmt hΓ hexpand hbody h₂)
      ((Draft.Advances.endBody hl).trans h₄) (hpersists.trans hjoin) hc hd
    obtain ⟨e', he'⟩ := ih hbody h₂ hc₂ hd₁
    exact ⟨e', hrest hpersists he'⟩
  | @step s t body u condition init c d d₀ d₁ d₂ e exits loops hloop ho hinit ho₀ hcondition h₂ hl _
      ih =>
    obtain ⟨hchildren, hexprs⟩ := children_of_loop hloop
    obtain ⟨⟨c', d₁', d₂', exits', loops', again, d₃, hcondition', h₂', hl', h₃, heq⟩, hjoin⟩ :=
      parts_of_loop hloop ho hinit ho₀ hs
    obtain ⟨-, rfl⟩ := Prod.mk.inj (Except.ok.inj (hcondition'.symm.trans hcondition))
    obtain rfl := Except.ok.inj (h₂'.symm.trans h₂)
    obtain ⟨-, rfl⟩ := List.cons.inj (hl'.symm.trans hl)
    have hbody := hchild hgroup (c := body) (by simp [hchildren])
    have ht := hchild hgroup (c := t) (by simp [hchildren])
    have h₀ := advances_stmtOption hΓ hexpand (fun x hx ↦ hchild hgroup
      (by simpa [hchildren] using .inl hx)) hinit
    have h₁ := advances_loopCondition hΓ hexpand (fun x hx hp ↦ (hgroup hp).expr
      (by simpa [hexprs, eq_comm] using hx)) ho₀ hcondition
    have hstep : ∀ x ∈ some t, Γ.program.CallsGrouped → x.Grouped l.program :=
      fun x hx ↦ Option.some.inj hx ▸ ht
    obtain ⟨d₄, -, hpersists, hlowered⟩ := advances_stepStmt hΓ hexpand hstep h₃
    have h₄ := hlowered t rfl
    obtain ⟨hc₄, ⟨L₁, hd₁⟩, hpersists⟩ := ((((h₀.trans h₁).trans (advances_stmt hΓ hexpand hbody
      h₂)).trans (.endBody hl)).trans (.fork _ "loop: step")).between
      (advances_stmt hΓ hexpand ht h₄) (.refl d₄) (hpersists.trans hjoin) hc hd
    obtain ⟨e', he'⟩ := ih ht h₄ hc₄ hd₁
    exact ⟨e', hrest hpersists he'⟩
  | @block id before after s u d d₁ e ho hbefore _ ih =>
    rw [stmt, if_neg (by simp [ho]), stmtList_append, hbefore, Synthesis.ok_bind, stmtList] at hs
    obtain ⟨d₂, h₂, hs⟩ := Synthesis.bind_eq_ok.1 hs
    have hgroups : ∀ x ∈ before ++ s :: after, Γ.program.CallsGrouped → x.Grouped l.program :=
      fun x hx ↦ hchild hgroup hx
    have hthis := hgroups s (by simp)
    obtain ⟨hc₂, ⟨L₁, hd₁⟩, hpersists⟩ := (advances_stmtList hΓ hexpand
      (fun x hx ↦ hgroups x (by simp [hx])) hbefore).between (advances_stmt hΓ hexpand hthis h₂)
      (advances_stmtList hΓ hexpand (fun x hx ↦ hgroups x (by simp [hx])) hs) (.refl d') hc hd
    obtain ⟨e', he'⟩ := ih hthis h₂ hc₂ hd₁
    exact ⟨e', hrest hpersists he'⟩

end

theorem spends_stmt (hequipped : l.EquippedAll expand s) (hn : s.groups.Nodup)
    (hf : d.Fresh s.groups) (h : l.stmt expand s d = .ok d') : d.Spends s.groups d' :=
  (lowers_stmt hequipped hn d hf).1 d' h

theorem spends_condition {c : HwExpr} {x : Expr} (hequipped : l.Equipped expand s)
    (hs : s.isParallel = false) (hx : x ∈ s.exprs) (hf : d.Fresh s.ownGroups)
    (h : l.condition expand x d = .ok (c, d')) : d.Spends s.ownGroups d' :=
  (meets_condition hequipped hs hx hf.solvent).1 _ h

theorem spends_loopCondition {c : Option HwExpr} (hequipped : l.Equipped expand s)
    (hloop : s.loop? = some (init, condition, step, body)) (hf : d.Fresh s.ownGroups)
    (h : l.loopCondition expand condition d = .ok (c, d')) : d.Spends s.ownGroups d' := by
  have hparallel : s.isParallel = false := by
    cases s with
    | parallel => cases hloop
    | _ => rfl
  obtain ⟨-, -, rfl⟩ | ⟨x, y, rfl, -, hy⟩ := loopCondition_eq_ok h
  · exact .refl _
  · exact spends_condition hequipped hparallel (by simp [(children_of_loop hloop).2]) hf hy

theorem spends_stmtOption {o : Option Stmt} (hequipped : ∀ x ∈ o, l.EquippedAll expand x)
    (hn : ∀ x ∈ o, x.groups.Nodup) (hf : d.Fresh (o.toList.flatMap Stmt.groups))
    (h : l.stmtOption expand o d = .ok d') : d.Spends (o.toList.flatMap Stmt.groups) d' :=
  (meets_stmtOption (fun x hx ↦ lowers_stmt (hequipped x hx) (hn x hx)) hf).1 d' h

/-- What is lowered before takes slots of other groups, so those of a later part stay fresh. -/
theorem fresh_of_spends {groups : List NodeId} (hn : (groups ++ u.groups).Nodup)
    (hf : d.Fresh u.groups) (h : d.Spends groups e) : e.Fresh u.groups :=
  hf.after h (List.nodup_append'.1 hn).2.2

theorem groups_of_loop (h : s.loop? = some (init, condition, step, body)) :
    s.groups = s.ownGroups ++ init.toList.flatMap Stmt.groups ++
      (body.groups ++ step.toList.flatMap Stmt.groups) := by
  rw [s.groups_eq, (children_of_loop h).1, List.flatMap_append, List.flatMap_cons, List.append_assoc]

/-- What is done before the body of a loop leaves the groups of the other parts alone. -/
theorem fresh_of_loop {d₀ d₁ : Draft} {c : Option HwExpr} (hequipped : l.EquippedAll expand s)
    (hn : s.groups.Nodup) (hf : d.Fresh s.groups)
    (hloop : s.loop? = some (init, condition, step, body)) (hinit : l.stmtOption expand init d = .ok d₀)
    (hcondition : l.loopCondition expand condition (d₀.openState "loop: head") = .ok (c, d₁)) :
    d₁.Fresh (body.groups ++ step.toList.flatMap Stmt.groups) := by
  have hmem : ∀ x ∈ init, x ∈ s.children := fun x hx ↦ by
    rw [(children_of_loop hloop).1]
    exact List.mem_append_left _ (Option.mem_toList.2 hx)
  have hninit : ∀ x ∈ init, x.groups.Nodup := fun x hx ↦ nodup_groups_child hn (hmem x hx)
  rw [groups_of_loop hloop] at hn hf
  obtain ⟨hn, -, hrest⟩ := List.nodup_append'.1 hn
  have hfhead := hf.mono (List.subset_append_left _ _)
  have h₀ := (spends_stmtOption (fun x hx ↦ hequipped.child (hmem x hx)) hninit
    (hfhead.mono (List.subset_append_right _ _)) hinit).trans
      (.of_sameScope (d₀.sameScope_openState "loop: head"))
  have hf₀ : (d₀.openState "loop: head").Fresh s.ownGroups :=
    (hfhead.mono (List.subset_append_left _ _)).after h₀ (List.nodup_append'.1 hn).2.2.symm
  have h₁ := spends_loopCondition (hequipped _ (Stmt.mem_nodes_self _)) hloop hf₀ hcondition
  refine (hf.mono (List.subset_append_right _ _)).after ((h₀.append h₁).mono ?_) hrest
  exact List.append_subset.2 ⟨List.subset_append_right _ _, List.subset_append_left _ _⟩

/-- The slots of the groups of a statement are not taken when the course comes to it. -/
theorem ComesTo.fresh (h : l.ComesTo expand s d u e) (hequipped : l.EquippedAll expand s)
    (hn : s.groups.Nodup) (hf : d.Fresh s.groups) : e.Fresh u.groups := by
  induction h with
  | here s d => exact hf
  | @thenBranch id condition thenBranch elseBranch c d d₁ e u ho hcondition _ ih =>
    have hmem : thenBranch ∈ (Stmt.branch id condition thenBranch elseBranch).children := by
      simp [Stmt.children]
    refine ih (hequipped.child hmem) (nodup_groups_child hn hmem) ?_
    rw [Stmt.groups_eq, Stmt.children, List.flatMap_cons] at hn hf
    have h₁ := spends_condition (hequipped _ (Stmt.mem_nodes_self _)) rfl (by simp [Stmt.exprs])
      (hf.mono (List.subset_append_left _ _)) hcondition
    refine fresh_of_spends (hn.sublist ?_) (hf.mono ?_)
      (h₁.trans ((spends_fork d₁ "if: then" []).mono (List.nil_subset _)))
    · exact (List.sublist_append_left _ _).append_left _
    · exact List.subset_append_of_subset_right _ (List.subset_append_left _ _)
  | @elseBranch id condition thenBranch s c d d₁ d₂ e u ho hcondition h₂ _ ih =>
    have hfirst : thenBranch ∈ (Stmt.branch id condition thenBranch (some s)).children := by
      simp [Stmt.children]
    have hsecond : s ∈ (Stmt.branch id condition thenBranch (some s)).children := by
      simp [Stmt.children]
    have hnfirst := nodup_groups_child hn hfirst
    refine ih (hequipped.child hsecond) (nodup_groups_child hn hsecond) ?_
    rw [Stmt.groups_eq, Stmt.children, List.flatMap_cons, Option.toList_some,
      List.flatMap_singleton] at hn hf
    have h₁ := (spends_condition (hequipped _ (Stmt.mem_nodes_self _)) rfl (by simp [Stmt.exprs])
      (hf.mono (List.subset_append_left _ _)) hcondition).trans
        ((spends_fork d₁ "if: then" []).mono (List.nil_subset _))
    have hf₁ := fresh_of_spends (hn.sublist ((List.sublist_append_left _ _).append_left _))
      (hf.mono (List.subset_append_of_subset_right _ (List.subset_append_left _ _))) h₁
    have h₂ := (spends_stmt (hequipped.child hfirst) hnfirst hf₁ h₂).trans
      ((spends_fork d₂ "if: else" []).mono (List.nil_subset _))
    refine fresh_of_spends ?_ (hf.mono ?_) (h₁.append h₂)
    · rwa [List.append_assoc]
    · exact List.subset_append_of_subset_right _ (List.subset_append_right _ _)
  | @init s i body u condition step d e hloop ho _ ih =>
    have hmem : i ∈ s.children := by simp [(children_of_loop hloop).1]
    refine ih (hequipped.child hmem) (nodup_groups_child hn hmem) (hf.mono ?_)
    rw [s.groups_eq]
    exact List.subset_append_of_subset_right _ fun g hg ↦ List.mem_flatMap.2 ⟨i, hmem, hg⟩
  | @body s body u condition init step c d d₀ d₁ e hloop ho hinit ho₀ hcondition _ ih =>
    have hmem : body ∈ s.children := by simp [(children_of_loop hloop).1]
    have hf₁ := fresh_of_loop hequipped hn hf hloop hinit hcondition
    exact ih (hequipped.child hmem) (nodup_groups_child hn hmem)
      (hf₁.mono (List.subset_append_left _ _))
  | @step s t body u condition init c d d₀ d₁ d₂ e exits loops hloop ho hinit ho₀ hcondition h₂ hl _
      ih =>
    have hbody : body ∈ s.children := by simp [(children_of_loop hloop).1]
    have ht : t ∈ s.children := by simp [(children_of_loop hloop).1]
    have hf₁ := fresh_of_loop hequipped hn hf hloop hinit hcondition
    have hnt := nodup_groups_child hn ht
    have hnbody := nodup_groups_child hn hbody
    rw [groups_of_loop hloop, Option.toList_some, List.flatMap_singleton] at hn
    rw [Option.toList_some, List.flatMap_singleton] at hf₁
    have hf₂ : (d₁.beginBody "loop: body").Fresh body.groups := hf₁.mono (List.subset_append_left _ _)
    refine ih (hequipped.child ht) hnt ?_
    have hf₃ : d₂.Fresh t.groups :=
      fresh_of_spends (d := d₁.beginBody "loop: body") (List.nodup_append'.1 hn).2.1
        (hf₁.mono (List.subset_append_right _ _)) (spends_stmt (hequipped.child hbody) hnbody hf₂ h₂)
    exact hf₃
  | @block id before after s u d d₁ e ho hbefore _ ih =>
    have hmem : s ∈ (Stmt.block id (before ++ s :: after)).children := by simp [Stmt.children]
    refine ih (hequipped.child hmem) (nodup_groups_child hn hmem) ?_
    rw [Stmt.groups_eq, Stmt.children, List.flatMap_append, List.flatMap_cons] at hn hf
    have hnbefore := (hn.sublist (List.sublist_append_right _ _)).sublist
      (List.sublist_append_left _ _)
    have hlowers : ∀ x ∈ before, l.Lowers expand x := fun x hx ↦
      lowers_stmt (hequipped.child (List.mem_append_left _ hx)) ((List.nodup_flatMap.1 hnbefore).1 x hx)
    have h₁ := (meets_stmtList hlowers hnbefore (hf.mono ?_)).1 d₁ hbefore
    · refine fresh_of_spends (hn.sublist ?_) (hf.mono ?_) h₁
      · exact ((List.sublist_append_left _ _).append_left _).trans (List.sublist_append_right _ _)
      · exact List.subset_append_of_subset_right _
          (List.subset_append_of_subset_right _ (List.subset_append_left _ _))
    · exact List.subset_append_of_subset_right _ (List.subset_append_left _ _)

end Lowering

end Fabric
