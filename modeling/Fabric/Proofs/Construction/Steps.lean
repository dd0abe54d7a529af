import Fabric.Proofs.Construction.Writing

namespace Fabric

def Transition.conditions {ι : Type} : Transition ι → List HwExpr
  | .goto _ => []
  | .branch c _ _ | .waitFor c _ => [c]

def Code.conditions (code : Code) : List HwExpr := code.flatMap fun b ↦ b.transition.conditions

namespace Code

theorem conditions_append (code more : Code) :
    conditions (code ++ more) = code.conditions ++ conditions more :=
  List.flatMap_append

theorem mem_conditions_redirect {code : Code} {i : Nat} {t : Transition DraftTarget} {c : HwExpr}
    (h : c ∈ (code.redirect i t).conditions) : c ∈ code.conditions ∨ c ∈ t.conditions := by
  induction code generalizing i with
  | nil =>
    cases i <;> exact .inl h
  | cons b code ih =>
    cases i with
    | zero =>
      rcases List.mem_append.1 h with h | h
      · exact .inr h
      · exact .inl (List.mem_append_right _ h)
    | succ i =>
      rcases List.mem_append.1 h with h | h
      · exact .inl (List.mem_append_left _ h)
      · exact (ih h).imp_left (List.mem_append_right _)

end Code

namespace Draft

def conditions (d : Draft) : List HwExpr := d.code.conditions

/-- Drafts that differ in how control goes through their states, and in empty states. New transitions
depend on the given conditions only. -/
structure Relinks (C : HwExpr → Prop) (d d' : Draft) : Prop where
  declarations : d'.declarations = d.declarations
  temporaries : d'.temporaries = d.temporaries
  frame : d'.frame = d.frame
  results : d'.results = d.results
  written : d'.written ⊆ d.written
  conditions : ∀ c ∈ d'.conditions, c ∈ d.conditions ∨ C c

namespace Relinks

variable {C : HwExpr → Prop} {d d' d'' : Draft}

theorem ofCode (hcode : d'.code = d.code) (hdeclarations : d'.declarations = d.declarations)
    (htemporaries : d'.temporaries = d.temporaries) (hframe : d'.frame = d.frame)
    (hresults : d'.results = d.results) : d.Relinks C d' where
  declarations := hdeclarations
  temporaries := htemporaries
  frame := hframe
  results := hresults
  written := by
    rw [Draft.written, hcode]
    exact List.Subset.refl _
  conditions c hc := by
    rw [Draft.conditions, hcode] at hc
    exact .inl hc

theorem refl (d : Draft) : d.Relinks C d := ofCode rfl rfl rfl rfl rfl

theorem trans (h : d.Relinks C d') (h' : d'.Relinks C d'') : d.Relinks C d'' where
  declarations := h'.declarations.trans h.declarations
  temporaries := h'.temporaries.trans h.temporaries
  frame := h'.frame.trans h.frame
  results := h'.results.trans h.results
  written := List.Subset.trans h'.written h.written
  conditions c hc := (h'.conditions c hc).elim (h.conditions c) .inr

theorem addState (d : Draft) (label : String) : d.Relinks C (d.addState label) where
  declarations := rfl
  temporaries := rfl
  frame := rfl
  results := rfl
  written := by
    rw [Draft.written, code_addState, Code.written_append]
    exact List.append_subset.2 ⟨List.Subset.refl _, List.nil_subset _⟩
  conditions c hc := by
    rw [Draft.conditions, code_addState, Code.conditions_append] at hc
    exact (List.mem_append.1 hc).elim .inl fun h ↦ absurd h List.not_mem_nil

theorem setTransition (d : Draft) (i : Nat) {t : Transition DraftTarget}
    (ht : ∀ c ∈ t.conditions, C c) : d.Relinks C (d.setTransition i t) where
  declarations := rfl
  temporaries := rfl
  frame := rfl
  results := rfl
  written := by
    rw [Draft.written, code_setTransition, Code.written_redirect]
    exact List.Subset.refl _
  conditions c hc := by
    rw [Draft.conditions, code_setTransition] at hc
    exact (Code.mem_conditions_redirect hc).imp_right (ht c)

theorem linkAll (sources : List Nat) (target : Nat) (d : Draft) :
    d.Relinks C (d.linkAll sources target) := by
  induction sources generalizing d with
  | nil => exact .refl d
  | cons i rest ih => exact (setTransition d i (List.forall_mem_nil _)).trans (ih (d.link i target))

theorem enter (d : Draft) (i : Nat) : d.Relinks C (d.enter i) := ofCode rfl rfl rfl rfl rfl

theorem fork (d : Draft) (label : String) : d.Relinks C ((d.addState label).enter d.nextState) :=
  (addState d label).trans (enter _ _)

theorem advance (d : Draft) (label : String) : d.Relinks C (d.advance label) := by
  unfold Draft.advance
  dsimp only
  split
  · exact fork d label
  · exact ((addState d label).trans (setTransition _ _ (List.forall_mem_nil _))).trans (enter _ _)

theorem openState (d : Draft) (label : String) : d.Relinks C (d.openState label) := by
  unfold Draft.openState
  split
  · exact ofCode (d.code_relabel d.current _ fun _ ↦ rfl) rfl rfl rfl rfl
  · exact advance d label

theorem reserve (d : Draft) (cost : Binary64) : d.Relinks C (d.reserve cost) := by
  have hwait (d : Draft) (wait : UInt32) : d.Relinks C
      { d.modifyState d.current fun s ↦ { s with waitCycles := wait } with budget := .infinity } :=
    ofCode (d.code_relabel d.current _ fun _ ↦ rfl) rfl rfl rfl rfl
  have hspend (d : Draft) (budget : Binary64) : d.Relinks C { d with budget := budget } :=
    ofCode rfl rfl rfl rfl rfl
  unfold Draft.reserve
  dsimp only
  split
  · split
    · exact hwait d _
    · exact (advance d _).trans (hwait _ _)
  · split
    · exact (advance d _).trans (hspend _ _)
    · exact hspend d _

theorem join (d : Draft) (label : String) (source : Nat) {t : Transition DraftTarget}
    (ht : ∀ c ∈ t.conditions, C c) (exits : List Nat) :
    d.Relinks C (d.join label source t exits) :=
  (((addState d label).trans (setTransition _ source ht)).trans (linkAll exits _ _)).trans
    (enter _ _)

end Relinks

end Draft

structure Draft.Alike (d d' : Draft) : Prop where
  declarations : d'.declarations = d.declarations
  temporaries : d'.temporaries = d.temporaries
  frame : d'.frame = { d.frame with returns := d'.frame.returns }
  results : d'.results = d.results

namespace Draft.Alike

variable {C : HwExpr → Prop} {d d' : Draft}

theorem ofScope (hs : d.SameScope d') (ht : d'.temporaries = d.temporaries) : d.Alike d' :=
  ⟨hs.declarations, ht, by rw [hs.frame], hs.results⟩

theorem ofRelinks (h : d.Relinks C d') : d.Alike d' :=
  ⟨h.declarations, h.temporaries, by rw [h.frame], h.results⟩

theorem emit (d : Draft) (s : HwStmt) (cost : Binary64) : d.Alike (d.emit s cost) :=
  ofScope (d.sameScope_emit s cost) (d.temporaries_emit s cost)

theorem reserve (d : Draft) (cost : Binary64) : d.Alike (d.reserve cost) :=
  ofScope (d.sameScope_reserve cost) (d.temporaries_reserve cost)

theorem leave (d : Draft) : d.Alike d.leave := ⟨rfl, rfl, rfl, rfl⟩

end Draft.Alike

def Stmt.condition? : Stmt → Option Expr
  | .branch _ condition _ _ | .whileLoop _ condition _ => some condition
  | .forLoop _ _ condition _ _ => condition
  | _ => none

theorem Stmt.mem_exprs_of_condition {s : Stmt} {e : Expr} (h : e ∈ s.condition?) : e ∈ s.exprs := by
  cases s with
  | branch | whileLoop =>
    obtain rfl := Option.some.inj h
    exact List.mem_cons_self
  | forLoop => exact Option.mem_toList.2 h
  | _ => cases h

namespace Lowering

/-- The steps in which statements are lowered establish a relation between the drafts before and after
them. The relation is about statements that satisfy `S` and drafts that satisfy `I`, in which conditions
are lowered to those that satisfy `C`. -/
structure Steps (l : Lowering) (expand : Expansion) (S : Stmt → Prop) (I : Draft → Prop)
    (C : HwExpr → Prop) (R : Draft → Draft → Prop) : Prop where
  child : ∀ {s c : Stmt}, S s → c ∈ s.children → S c
  trans : ∀ {d d' d'' : Draft}, R d d' → R d' d'' → R d d''
  outside : ∀ {d d' : Draft}, ¬I d → R d d'
  relink : ∀ {d d' : Draft}, d.Relinks C d' → R d d'
  condition : ∀ {s : Stmt} {e : Expr} {c : HwExpr} {d d' : Draft}, S s → e ∈ s.condition? →
    l.condition expand e d = .ok (c, d') → R d d' ∧ (I d → C c)
  declare : ∀ {id : NodeId} {name : String} {type : TypeRef} {init : Option Expr} {d d' : Draft},
    S (.declare id name type init) → l.declare expand name type init d = .ok d' → R d d'
  assign : ∀ {id : NodeId} {target : AssignTarget} {e : Expr} {d d' : Draft},
    S (.assign id target e) → l.assign expand target e d = .ok d' → R d d'
  store : ∀ {id : NodeId} {array index value : Expr} {d d' : Draft},
    S (.store id array index value) → l.store expand array index value d = .ok d' → R d d'
  ret : ∀ {id : NodeId} {value : Option Expr} {d d' : Draft}, S (.ret id value) →
    l.ret expand value d = .ok d' → R d d'
  eval : ∀ {id : NodeId} {e : Expr} {d d' : Draft}, S (.eval id e) →
    l.eval expand e d = .ok d' → R d d'
  parallel : ∀ {id : NodeId} {count : Expr} {index : String} {call : Expr}
    {results : Option String} {d d' : Draft}, S (.parallel id count index call results) →
    l.parallel id count index call results d = .ok d' → R d d'

namespace Steps

variable {l : Lowering} {expand : Expansion} {S : Stmt → Prop} {I : Draft → Prop}
  {C : HwExpr → Prop} {R : Draft → Draft → Prop} {d d' : Draft}

theorem refl (h : l.Steps expand S I C R) (d : Draft) : R d d := h.relink (.refl d)

theorem elseStmt (h : l.Steps expand S I C R) {s : Option Stmt} {first exit : Option Nat}
    (hs : ∀ x ∈ s, ∀ {d d' : Draft}, l.stmt expand x d = .ok d' → R d d')
    (hrun : l.elseStmt expand s d = .ok (first, exit, d')) : R d d' := by
  obtain ⟨-, -, -, rfl⟩ | ⟨x, rfl, -, -, h₁⟩ := elseStmt_eq_ok hrun
  · exact h.refl _
  · exact h.trans (h.relink (.fork d "if: else")) (hs x rfl h₁)

theorem stmtOption (h : l.Steps expand S I C R) {s : Option Stmt}
    (hs : ∀ x ∈ s, ∀ {d d' : Draft}, l.stmt expand x d = .ok d' → R d d')
    (hrun : l.stmtOption expand s d = .ok d') : R d d' := by
  obtain ⟨-, rfl⟩ | ⟨x, rfl, hrun⟩ := stmtOption_eq_ok hrun
  · exact h.refl _
  · exact hs x rfl hrun

theorem stepStmt (h : l.Steps expand S I C R) {s : Option Stmt} {head again : Nat}
    (hs : ∀ x ∈ s, ∀ {d d' : Draft}, l.stmt expand x d = .ok d' → R d d')
    (hrun : l.stepStmt expand s head d = .ok (again, d')) : R d d' := by
  obtain ⟨-, -, rfl⟩ | ⟨x, d₁, rfl, -, h₁, rfl⟩ := stepStmt_eq_ok hrun
  · exact h.refl _
  · exact h.trans (h.trans (h.relink (.fork d _)) (hs x rfl h₁)) (h.relink (.linkAll _ _ _))

theorem stmtList (h : l.Steps expand S I C R) {ss : List Stmt}
    (hs : ∀ x ∈ ss, ∀ {d d' : Draft}, l.stmt expand x d = .ok d' → R d d')
    (hrun : l.stmtList expand ss d = .ok d') : R d d' :=
  rel_of_stmtList h.refl h.trans hs hrun

theorem loopCondition (h : l.Steps expand S I C R) {s : Stmt} (hs : S s) {c : Option HwExpr}
    (hrun : l.loopCondition expand s.condition? d = .ok (c, d')) :
    R d d' ∧ (I d → ∀ body exit, ∀ x ∈ (loopTransition c body exit).conditions, C x) := by
  obtain ⟨-, rfl, rfl⟩ | ⟨e, y, he, rfl, hc⟩ := loopCondition_eq_ok hrun
  · exact ⟨h.refl _, fun _ _ _ ↦ List.forall_mem_nil _⟩
  · obtain ⟨hR, hC⟩ := h.condition hs he hc
    exact ⟨hR, fun hI _ _ ↦ List.forall_mem_singleton.2 (hC hI)⟩

/-- A loop is lowered in steps. A `while` loop is lowered as the `for` loop with its condition. -/
theorem loop (h : l.Steps expand S I C R) {s body : Stmt} (hs : S s) {id : NodeId}
    {init step : Option Stmt}
    (hinit : ∀ x ∈ init, ∀ {d d' : Draft}, l.stmt expand x d = .ok d' → R d d')
    (hstep : ∀ x ∈ step, ∀ {d d' : Draft}, l.stmt expand x d = .ok d' → R d d')
    (hbody : ∀ {d d' : Draft}, l.stmt expand body d = .ok d' → R d d')
    (hrun : l.stmt expand (.forLoop id init s.condition? step body) d = .ok d')
    (ho : d.isClosed = false) : R d d' := by
  obtain ⟨d₀, h₀, hrest⟩ := stmt_forLoop hrun ho
  refine h.trans (h.stmtOption hinit h₀) ?_
  obtain ⟨-, rfl⟩ | ⟨-, ⟨p⟩⟩ := hrest
  · exact h.refl _
  by_cases hI : I (d₀.openState "loop: head")
  swap
  · exact h.trans (h.relink (.openState d₀ "loop: head")) (h.outside hI)
  obtain ⟨hcondition, hC⟩ := h.loopCondition hs p.condition_eq
  have hbegin : R p.afterCondition
      { (p.afterCondition.addState "loop: body").enter p.afterCondition.nextState with
        loops := ⟨[], []⟩ :: p.afterCondition.loops } :=
    h.relink ((Draft.Relinks.fork p.afterCondition "loop: body").trans
      (.ofCode rfl rfl rfl rfl rfl))
  have hend : R p.afterBody { p.afterBody with loops := p.loops } :=
    h.relink (.ofCode rfl rfl rfl rfl rfl)
  have hhead := h.trans (h.relink (.openState d₀ "loop: head")) hcondition
  have hround := h.trans (h.trans (h.trans (h.trans hhead hbegin) (hbody p.body_eq)) hend)
    (h.stepStmt hstep p.step_eq)
  have hjoin := (Draft.Relinks.linkAll (C := C) (p.afterBody.exit?.toList ++ p.exits.continues) p.again
    p.afterStep).trans (.join _ "loop: exit" p.afterCondition.current
      (hC hI p.afterCondition.nextState p.afterStep.nextState) p.exits.breaks)
  rw [← p.eq] at hjoin
  exact h.trans hround (h.relink hjoin)

theorem branch (h : l.Steps expand S I C R) {id : NodeId} {condition : Expr} {thenBranch : Stmt}
    {elseBranch : Option Stmt} (hs : S (.branch id condition thenBranch elseBranch))
    (hthen : ∀ {d d' : Draft}, l.stmt expand thenBranch d = .ok d' → R d d')
    (helse : ∀ x ∈ elseBranch, ∀ {d d' : Draft}, l.stmt expand x d = .ok d' → R d d')
    (hrun : l.stmt expand (.branch id condition thenBranch elseBranch) d = .ok d')
    (ho : d.isClosed = false) : R d d' := by
  obtain ⟨c, d₁, d₂, elseState, elseExit, d₃, hc, h₂, h₃, rfl⟩ := branch_eq_ok hrun ho
  by_cases hI : I d
  swap
  · exact h.outside hI
  obtain ⟨hcondition, hC⟩ := h.condition hs rfl hc
  have hbranches := h.trans (h.trans (h.trans hcondition (h.relink (.fork d₁ "if: then")))
    (hthen h₂)) (h.elseStmt helse h₃)
  have hconditions : ∀ x ∈ (Transition.branch c (DraftTarget.state d₁.nextState)
      (.state (elseState.getD d₃.nextState))).conditions, C x := List.forall_mem_singleton.2 (hC hI)
  have hjoin := Draft.Relinks.join d₃ "if: join" d₁.current hconditions
    (d₂.exit?.toList ++ elseExit.toList)
  exact h.trans hbranches (h.relink (hjoin.trans (.ofCode rfl rfl rfl rfl rfl)))

/-- A statement is lowered in steps. -/
theorem stmt (h : l.Steps expand S I C R) {s : Stmt} (hs : S s)
    (hrun : l.stmt expand s d = .ok d') : R d d' := by
  -- A statement in a closed draft is left out.
  have hopen {s : Stmt} (hs : ∀ {d d' : Draft}, l.stmt expand s d = .ok d' →
      d.isClosed = false → R d d') {d d' : Draft} (hrun : l.stmt expand s d = .ok d') : R d d' := by
    cases hc : d.isClosed with
    | false => exact hs hrun hc
    | true =>
      rw [stmt_of_closed hc] at hrun
      obtain rfl := Except.ok.inj hrun
      exact h.refl _
  refine hopen (fun {d d'} hrun ho ↦ ?_) hrun
  clear * - h hs hrun ho hopen
  induction s using Stmt.induction generalizing d d' with
  | declare id name type init =>
    rw [Lowering.stmt, if_neg (by simp [ho])] at hrun
    exact h.declare hs hrun
  | assign id target value =>
    rw [Lowering.stmt, if_neg (by simp [ho])] at hrun
    exact h.assign hs hrun
  | store id array index value =>
    rw [Lowering.stmt, if_neg (by simp [ho])] at hrun
    exact h.store hs hrun
  | branch id condition thenBranch elseBranch iht ihe =>
    have hthen := h.child hs (c := thenBranch) (by simp [Stmt.children])
    refine h.branch hs (hopen fun hrun ho ↦ iht hthen hrun ho)
      (fun x hx ↦ hopen fun hrun ho ↦ ihe x hx (h.child hs ?_) hrun ho) hrun ho
    exact List.mem_cons_of_mem _ (Option.mem_toList.2 hx)
  | whileLoop id condition body ih =>
    have hbody := h.child hs (c := body) (by simp [Stmt.children])
    have hnone : ∀ x ∈ (none : Option Stmt), ∀ {d d' : Draft}, l.stmt expand x d = .ok d' → R d d' := by
      intro x hx
      cases hx
    rw [stmt_whileLoop] at hrun
    exact h.loop hs hnone hnone (hopen fun hrun ho ↦ ih hbody hrun ho) hrun ho
  | forLoop id init condition step body ihi ihs ihb =>
    have hbody := h.child hs (c := body) (by simp [Stmt.children])
    refine h.loop hs (fun x hx ↦ hopen fun hrun ho ↦ ihi x hx (h.child hs ?_) hrun ho)
      (fun x hx ↦ hopen fun hrun ho ↦ ihs x hx (h.child hs ?_) hrun ho)
      (hopen fun hrun ho ↦ ihb hbody hrun ho) hrun ho
    · exact List.mem_append_left _ (Option.mem_toList.2 hx)
    · exact List.mem_append_right _ (List.mem_cons_of_mem _ (Option.mem_toList.2 hx))
  | ret id value =>
    rw [Lowering.stmt, if_neg (by simp [ho])] at hrun
    exact h.ret hs hrun
  | eval id e =>
    rw [Lowering.stmt, if_neg (by simp [ho])] at hrun
    exact h.eval hs hrun
  | block id stmts ih =>
    rw [Lowering.stmt, if_neg (by simp [ho])] at hrun
    exact h.stmtList (fun x hx ↦ hopen fun hrun ho ↦ ih x hx (h.child hs hx) hrun ho) hrun
  | breakLoop id | continueLoop id =>
    rw [Lowering.stmt, if_neg (by simp [ho])] at hrun
    obtain ⟨x, rest, -, rfl⟩ := exitLoop_eq_ok hrun
    exact h.relink (.ofCode rfl rfl rfl rfl rfl)
  | parallel id count index call results =>
    rw [Lowering.stmt, if_neg (by simp [ho])] at hrun
    exact h.parallel hs hrun

end Steps

/-- The steps in which expressions are prepared and lowered and names are bound establish a relation that
looks at names and results only. -/
structure NameSteps (l : Lowering) (expand : Expansion) (S : Stmt → Prop) (R : Draft → Draft → Prop) :
    Prop where
  child : ∀ {s c : Stmt}, S s → c ∈ s.children → S c
  trans : ∀ {d d' d'' : Draft}, R d d' → R d' d'' → R d d''
  alike : ∀ {d d' : Draft}, d.Alike d' → R d d'
  prepare : ∀ {s : Stmt} {e : Expr} {d d' : Draft}, S s → e ∈ s.exprs →
    l.prepare expand e d = .ok d' → R d d'
  expr : ∀ {e : Expr} {v : Lowered} {d d' : Draft}, l.expr e d = .ok (v, d') → R d d'
  bind : ∀ {id : NodeId} {name : String} {type : TypeRef} {init : Option Expr} {t : HwType}
    {d d' : Draft} (comment : String), S (.declare id name type init) →
    l.localType d type name = .ok t → R d d' →
    R d ((d'.declare name t comment).2.bind name (.variable (d'.declare name t comment).1 t))
  parallel : ∀ {id : NodeId} {count : Expr} {index : String} {call : Expr}
    {results : Option String} {d d' : Draft}, S (.parallel id count index call results) →
    l.parallel id count index call results d = .ok d' → R d d'

namespace NameSteps

variable {l : Lowering} {expand : Expansion} {S : Stmt → Prop} {R : Draft → Draft → Prop}
  {d d' : Draft} {s : Stmt} {e : Expr}

theorem refl (h : l.NameSteps expand S R) (d : Draft) : R d d := h.alike ⟨rfl, rfl, rfl, rfl⟩

theorem value (h : l.NameSteps expand S R) (hs : S s) (he : e ∈ s.exprs) {type : HwType} {v : Lowered}
    (hrun : l.value expand e type d = .ok (v, d')) : R d d' := by
  obtain ⟨id, element, length, t, n, -, -, -, rfl⟩ | ⟨-, d₁, h₁, hrun⟩ := value_eq_ok hrun
  · exact h.refl _
  · exact h.trans (h.prepare hs he h₁) (h.expr hrun)

theorem condition (h : l.NameSteps expand S R) (hs : S s) (he : e ∈ s.exprs) {c : HwExpr}
    (hrun : l.condition expand e d = .ok (c, d')) : R d d' := by
  obtain ⟨d₁, v, d₂, h₁, h₂, -, rfl⟩ := condition_eq_ok hrun
  exact h.trans (h.trans (h.prepare hs he h₁) (h.expr h₂)) (h.alike (.reserve _ _))

theorem declare (h : l.NameSteps expand S R) {id : NodeId} {name : String} {type : TypeRef}
    {init : Option Expr} (hs : S (.declare id name type init))
    (hrun : l.declare expand name type init d = .ok d') : R d d' := by
  obtain ⟨t, ht, ⟨-, rfl⟩ | ⟨e, v, d₁, rfl, hv, rfl⟩⟩ := declare_eq_ok hrun
  · exact h.bind _ hs ht (h.refl d)
  · exact h.trans (h.bind _ hs ht (h.value hs List.mem_cons_self hv)) (h.alike (.emit _ _ _))

theorem assign (h : l.NameSteps expand S R) {id : NodeId} {target : AssignTarget}
    (hs : S (.assign id target e)) (hrun : l.assign expand target e d = .ok d') : R d d' := by
  obtain ⟨name, x, type, v, d₁, -, -, hv, rfl⟩ := assign_eq_ok hrun
  exact h.trans (h.value hs List.mem_cons_self hv) (h.alike (.emit _ _ _))

theorem store (h : l.NameSteps expand S R) {id : NodeId} {array index value : Expr}
    (hs : S (.store id array index value)) (hrun : l.store expand array index value d = .ok d') :
    R d d' := by
  obtain ⟨name, x, element, length, d₁, d₂, i, d₃, v, d₄, cost, -, -, h₁, h₂, h₃, h₄, -, rfl⟩ :=
    store_eq_ok hrun
  have hprepared := h.trans (h.prepare hs (by simp [Stmt.exprs]) h₁)
    (h.prepare hs (by simp [Stmt.exprs]) h₂)
  exact h.trans (h.trans (h.trans hprepared (h.expr h₃)) (h.expr h₄)) (h.alike (.emit _ _ _))

theorem ret (h : l.NameSteps expand S R) {id : NodeId} {value : Option Expr} (hs : S (.ret id value))
    (hrun : l.ret expand value d = .ok d') : R d d' := by
  obtain ⟨e, type, v, d₁, rfl, -, hv, rfl⟩ | ⟨-, -, rfl⟩ | ⟨e, d₁, rfl, -, h₁, rfl⟩ := ret_eq_ok hrun
  · exact h.trans (h.trans (h.value hs List.mem_cons_self hv) (h.alike (.emit _ _ _)))
      (h.alike (.leave _))
  · exact h.alike (.leave d)
  · exact h.trans (h.prepare hs List.mem_cons_self h₁) (h.alike (.leave _))

theorem eval (h : l.NameSteps expand S R) {id : NodeId} (hs : S (.eval id e))
    (hrun : l.eval expand e d = .ok d') : R d d' := by
  obtain ⟨d₁, h₁, hrun⟩ := eval_eq_ok hrun
  have hprepared := h.prepare hs List.mem_cons_self h₁
  obtain ⟨-, rfl⟩ | ⟨-, v, h₂⟩ := hrun
  · exact hprepared
  · exact h.trans hprepared (h.expr h₂)

theorem steps (h : l.NameSteps expand S R) :
    l.Steps expand S (fun _ ↦ True) (fun _ ↦ True) R where
  child := h.child
  trans := h.trans
  outside hfalse := absurd trivial hfalse
  relink hr := h.alike (.ofRelinks hr)
  condition hs he hrun := ⟨h.condition hs (Stmt.mem_exprs_of_condition he) hrun, fun _ ↦ trivial⟩
  declare := h.declare
  assign := h.assign
  store := h.store
  ret := h.ret
  eval := h.eval
  parallel := h.parallel

end NameSteps

end Lowering

end Fabric
