import Fabric.Proofs.Construction.Parallel

namespace Fabric

/-- Setting the transition of a state that is still loose to where it leads changes nothing. -/
theorem Code.Dangling.redirect_eq {code : Code} {E : Set Nat} {i : Nat} (h : code.Dangling E i) :
    code.redirect i (.goto .finished) = code := by
  obtain ⟨b, hb, ht, -⟩ := h
  apply List.ext_getElem?
  intro j
  rcases eq_or_ne i j with rfl | hne
  · rw [getElem?_redirect_eq, hb, Option.map_some, ← ht]
  · exact getElem?_redirect_ne _ _ hne

namespace Draft

variable {Γ : Interface} {d : Draft}

def returnExits (d : Draft) : List Nat :=
  if d.frame.isExpanded then [d.current] else []

theorem evolves_leave (ho : d.isClosed = false) :
    Evolves Γ (d.Scoped Γ) [] [] d.returnExits d d.leave (d.leave.Scoped Γ) := by
  refine ⟨⟨List.Subset.refl _, fun _ ↦ UInt32.le_refl _, ?_, fun _ ↦ ⟨rfl, rfl⟩, ?_, ?_⟩,
    fun _ hs ↦ ⟨⟨⟨hs.frame.locals, hs.frame.result⟩, hs.results⟩, fun L R E hg ↦ ⟨E, ?_⟩⟩⟩
  · exact (Grows.refl d).loops
  · unfold leave returnExits
    dsimp only [setTransition, modifyState]
    split <;> simp
  · intro hx
    simp [returnExits, hx]
  · obtain ⟨-, hd⟩ := hg.opened ho
    have hcode : d.leave.code = d.code :=
      (d.code_setTransition d.current _).trans hd.redirect_eq
    have hsite (L R : Multiset Nat) : d.leave.site L R E = ⟨d.code, d.current, true, L, R, E⟩ := by
      unfold site
      rw [hcode]
      rfl
    rw [hsite, site, ho]
    unfold returnExits
    split
    · simpa using Relation.ReflTransGen.single (Move.ret (Γ := Γ))
    · simpa using Relation.ReflTransGen.single (Move.leave (Γ := Γ))

theorem evolves_exitLoop (ho : d.isClosed = false) {x : LoopExits} {rest : List LoopExits}
    (hl : d.loops = x :: rest) {B C : List Nat} (hmem : (↑B + ↑C : Multiset Nat) = {d.current}) :
    Evolves Γ (d.Scoped Γ) B C [] d { d with loops := x.add B C :: rest, isClosed := true }
      (({ d with loops := x.add B C :: rest, isClosed := true } : Draft).Scoped Γ) := by
  refine ⟨⟨List.Subset.refl _, fun _ ↦ UInt32.le_refl _, ?_, fun hnil ↦ ?_, ?_, fun _ ↦ rfl⟩,
    fun _ hs ↦ ⟨⟨hs.frame, hs.results⟩, fun L R E hg ↦ ⟨E, ?_⟩⟩⟩
  · rw [hl]
    rfl
  · rw [hl] at hnil
    exact nomatch hnil
  · rw [List.append_nil]
  · have hm : Moves Γ ⟨d.code, d.current, false, L, R, E⟩
        ⟨d.code, d.current, true, d.current ::ₘ L, R, E⟩ := .single .suspend
    rw [hmem, Multiset.singleton_add, Multiset.coe_nil, zero_add, site, ho]
    exact hm

theorem evolves_close (ho : d.isClosed = false) (closed : Bool) :
    Evolves.Plainly Γ (d.Scoped Γ) d { d with isClosed := closed }
      (({ d with isClosed := closed } : Draft).Scoped Γ) := by
  refine .ofMoves ⟨rfl, rfl, rfl, rfl, rfl, rfl⟩ (fun _ _ L R E _ ↦ ⟨E, ?_⟩) fun hs ↦
    ⟨hs.frame, hs.results⟩
  unfold site
  rw [ho]
  cases closed with
  | false => exact .refl
  | true => exact .single .leave

end Draft

namespace Stmt.Grouped

variable {p : Program} {s c : Stmt} {e : Expr}

theorem expr (h : s.Grouped p) (he : e ∈ s.exprs) : e.Grouped p :=
  ⟨s.id, h s s.mem_nodes_self e he⟩

theorem child (h : s.Grouped p) (hc : c ∈ s.children) : c.Grouped p :=
  fun t ht ↦ h t (nodes_subset_of_mem_children hc ht)

end Stmt.Grouped

namespace Lowering

variable {l : Lowering} {Γ : Interface} {expand : Expansion} {d d' : Draft}

/-- A new array is all zeroes. Any other value is prepared and lowered. -/
theorem value_eq_ok {e : Expr} {type : HwType} {v : Lowered}
    (h : l.value expand e type d = .ok (v, d')) :
    (∃ id element length t n, e = .newArray id element length ∧ type = .array t n ∧
      v = .free (.int 0 type) type ∧ d' = d) ∨
      ((∀ id element length t n, e = .newArray id element length → type ≠ .array t n) ∧
        ∃ d₁, l.prepare expand e d = .ok d₁ ∧ l.expr e d₁ = .ok (v, d')) := by
  unfold value at h
  split at h
  next id element length t n =>
    obtain ⟨rfl, rfl⟩ := Prod.mk.inj (Except.ok.inj h)
    exact .inl ⟨id, element, length, t, n, rfl, rfl, rfl, rfl⟩
  next hne => exact .inr ⟨hne, Synthesis.bind_eq_ok.1 h⟩

theorem condition_eq_ok {e : Expr} {c : HwExpr} (h : l.condition expand e d = .ok (c, d')) :
    ∃ d₁ v d₂, l.prepare expand e d = .ok d₁ ∧ l.expr e d₁ = .ok (v, d₂) ∧
      c = v.coerce .boolean ∧ d' = d₂.reserve v.cost := by
  unfold condition at h
  obtain ⟨d₁, h₁, h⟩ := Synthesis.bind_eq_ok.1 h
  obtain ⟨⟨v, d₂⟩, h₂, h⟩ := Synthesis.bind_eq_ok.1 h
  obtain ⟨rfl, rfl⟩ := Prod.mk.inj (Except.ok.inj h)
  exact ⟨d₁, v, d₂, h₁, h₂, rfl, rfl⟩

theorem declare_eq_ok {name : String} {type : TypeRef} {init : Option Expr}
    (h : l.declare expand name type init d = .ok d') :
    ∃ t, l.localType d type name = .ok t ∧
      ((init = none ∧ d' = (d.declare name t ("local " ++ name)).2.bind name
          (.variable (d.declare name t ("local " ++ name)).1 t)) ∨
        ∃ e v d₁, init = some e ∧ l.value expand e t d = .ok (v, d₁) ∧
          d' = ((d₁.declare name t ("local " ++ name)).2.bind name
            (.variable (d₁.declare name t ("local " ++ name)).1 t)).emit
              (.setVariable (d₁.declare name t ("local " ++ name)).1 (v.coerce t)) v.cost) := by
  unfold Lowering.declare at h
  obtain ⟨t, ht, h⟩ := Synthesis.bind_eq_ok.1 h
  refine ⟨t, ht, ?_⟩
  cases init with
  | none => exact .inl ⟨rfl, (Except.ok.inj h).symm⟩
  | some e =>
    obtain ⟨⟨v, d₁⟩, hv, h⟩ := Synthesis.bind_eq_ok.1 h
    obtain ⟨-, -, h⟩ := Synthesis.bind_eq_ok.1 h
    exact .inr ⟨e, v, d₁, rfl, hv, (Except.ok.inj h).symm⟩

theorem assign_eq_ok {target : AssignTarget} {e : Expr} (h : l.assign expand target e d = .ok d') :
    ∃ name x type v d₁, (target = .toLocal name ∨ target = .toParameter name) ∧
      l.lookup d name = .ok (.variable x type) ∧ l.value expand e type d = .ok (v, d₁) ∧
      d' = d₁.emit (.setVariable x (v.coerce type)) v.cost := by
  unfold Lowering.assign at h
  cases target with
  | toField f => cases h
  | toLocal name | toParameter name =>
    obtain ⟨b, hb, h⟩ := Synthesis.bind_eq_ok.1 h
    cases b with
    | constant value type => cases h
    | «variable» x type =>
      obtain ⟨⟨v, d₁⟩, hv, h⟩ := Synthesis.bind_eq_ok.1 h
      obtain ⟨-, -, h⟩ := Synthesis.bind_eq_ok.1 h
      exact ⟨name, x, type, v, d₁, by simp, hb, hv, (Except.ok.inj h).symm⟩

/-- Only into a name that stands for an array a value is stored. The index and the value are prepared
before either is lowered. -/
theorem store_eq_ok {array index value : Expr} (h : l.store expand array index value d = .ok d') :
    ∃ name x element length d₁ d₂ i d₃ v d₄ cost, l.arrayName array = .ok name ∧
      l.lookup d name = .ok (.variable x (.array element length)) ∧
      l.prepare expand index d = .ok d₁ ∧ l.prepare expand value d₁ = .ok d₂ ∧
      l.expr index d₂ = .ok (i, d₃) ∧ l.expr value d₃ = .ok (v, d₄) ∧
      l.cost .index i.type none = .ok cost ∧
      d' = d₄.emit (.assign (.element x i.expr) (v.coerce element)) (cost + max i.cost v.cost) := by
  unfold Lowering.store at h
  obtain ⟨name, hname, h⟩ := Synthesis.bind_eq_ok.1 h
  obtain ⟨b, hb, h⟩ := Synthesis.bind_eq_ok.1 h
  dsimp only at h
  split at h
  next x element length =>
    obtain ⟨d₁, h₁, h⟩ := Synthesis.bind_eq_ok.1 h
    obtain ⟨d₂, h₂, h⟩ := Synthesis.bind_eq_ok.1 h
    obtain ⟨⟨i, d₃⟩, h₃, h⟩ := Synthesis.bind_eq_ok.1 h
    obtain ⟨⟨v, d₄⟩, h₄, h⟩ := Synthesis.bind_eq_ok.1 h
    obtain ⟨cost, hcost, h⟩ := Synthesis.bind_eq_ok.1 h
    obtain ⟨-, -, h⟩ := Synthesis.bind_eq_ok.1 h
    exact ⟨name, x, element, length, d₁, d₂, i, d₃, v, d₄, cost, hname, hb, h₁, h₂, h₃, h₄, hcost,
      (Except.ok.inj h).symm⟩
  next => exact nomatch h

def returnTarget (d : Draft) : HwTarget :=
  match d.frame.returnVariable with
  | some name => .variable name
  | none => .signal (.own .result)

/-- A value is returned if the member has a result, and otherwise it is only prepared. -/
theorem ret_eq_ok {value : Option Expr} (h : l.ret expand value d = .ok d') :
    (∃ e type v d₁, value = some e ∧ d.frame.returnType = some type ∧
      l.value expand e type d = .ok (v, d₁) ∧
      d' = (d₁.emit (.assign (returnTarget d) (v.coerce type)) v.cost).leave) ∨
      (value = none ∧ d.frame.returnType = none ∧ d' = d.leave) ∨
      ∃ e d₁, value = some e ∧ d.frame.returnType = none ∧ l.prepare expand e d = .ok d₁ ∧
        d' = d₁.leave := by
  unfold Lowering.ret at h
  split at h
  next e type htype =>
    obtain ⟨⟨v, d₁⟩, hv, h⟩ := Synthesis.bind_eq_ok.1 h
    obtain ⟨-, -, h⟩ := Synthesis.bind_eq_ok.1 h
    exact .inl ⟨e, type, v, d₁, rfl, htype, hv, (Except.ok.inj h).symm⟩
  next htype => exact .inr (.inl ⟨rfl, htype, (Except.ok.inj h).symm⟩)
  next e htype =>
    obtain ⟨d₁, h₁, h⟩ := Synthesis.bind_eq_ok.1 h
    exact .inr (.inr ⟨e, d₁, rfl, htype, h₁, (Except.ok.inj h).symm⟩)
  next => exact nomatch h

theorem eval_eq_ok {e : Expr} (h : l.eval expand e d = .ok d') :
    ∃ d₁, l.prepare expand e d = .ok d₁ ∧ ((d₁.isEvaluated e = true ∧ d' = d₁) ∨
      (d₁.isEvaluated e = false ∧ ∃ v, l.expr e d₁ = .ok (v, d'))) := by
  unfold Lowering.eval at h
  obtain ⟨d₁, h₁, h⟩ := Synthesis.bind_eq_ok.1 h
  refine ⟨d₁, h₁, ?_⟩
  dsimp only at h
  split at h
  next hev => exact .inl ⟨hev, (Except.ok.inj h).symm⟩
  next hev =>
    obtain ⟨⟨v, d₂⟩, h₂, h⟩ := Synthesis.bind_eq_ok.1 h
    obtain rfl := Except.ok.inj h
    exact .inr ⟨eq_false_of_ne_true hev, v, h₂⟩

theorem reaches_eval (hΓ : Γ.Sees l) (hexpand : expand.Sound Γ) {e : Expr}
    (hgroup : Γ.program.CallsGrouped → e.Grouped l.program) {d₁ : Draft} {v : Lowered}
    (h₁ : l.prepare expand e d = .ok d₁) (h : l.expr e d₁ = .ok (v, d')) (ho : d.isClosed = false) :
    d.Reaches Γ True d' (v.Typed Γ) := by
  have hr₁ := prepares_prepare hΓ hexpand e hgroup h₁ ho
  exact hr₁.seq (.ofEvaluates (expr_evaluates h hr₁.opened)) (fun _ h ↦ h) fun _ _ h ↦ h

theorem reaches_value (hΓ : Γ.Sees l) (hexpand : expand.Sound Γ) {e : Expr} {type : HwType}
    (hgroup : Γ.program.CallsGrouped → e.Grouped l.program) {v : Lowered}
    (h : l.value expand e type d = .ok (v, d')) (ho : d.isClosed = false) :
    d.Reaches Γ True d' (v.Typed Γ) := by
  obtain ⟨id, element, length, t, n, rfl, rfl, rfl, rfl⟩ | ⟨-, d₁, h₁, h⟩ := value_eq_ok h
  · exact .refl ho fun _ ↦ .int 0 _
  · exact reaches_eval hΓ hexpand hgroup h₁ h ho

theorem reaches_condition (hΓ : Γ.Sees l) (hexpand : expand.Sound Γ) {e : Expr}
    (hgroup : Γ.program.CallsGrouped → e.Grouped l.program) {c : HwExpr}
    (h : l.condition expand e d = .ok (c, d')) (ho : d.isClosed = false) :
    d.Reaches Γ True d' (c.HasType Γ .boolean) := by
  obtain ⟨d₁, v, d₂, h₁, h₂, rfl, rfl⟩ := condition_eq_ok h
  have hr₂ := reaches_eval hΓ hexpand hgroup h₁ h₂ ho
  exact hr₂.seq (.reserve hr₂.opened v.cost) (fun _ h ↦ h) fun _ hv _ ↦ hv.coerce .boolean

theorem reaches_declare (hΓ : Γ.Sees l) (hexpand : expand.Sound Γ) {name : String} {type : TypeRef}
    {init : Option Expr} (hgroup : ∀ e ∈ init, Γ.program.CallsGrouped → e.Grouped l.program)
    (h : l.declare expand name type init d = .ok d') (ho : d.isClosed = false) :
    d.Reaches Γ True d' True := by
  obtain ⟨t, -, ⟨rfl, rfl⟩ | ⟨e, v, d₁, rfl, hv, rfl⟩⟩ := declare_eq_ok h
  · have hd : d.Reaches Γ True _ _ := .declare ho name t ("local " ++ name)
    exact hd.seq (.bind hd.opened name _) (fun _ hd ↦ hd) fun _ _ h ↦ h
  · have hr₁ := reaches_value hΓ hexpand (hgroup e rfl) hv ho
    let x := d₁.declare name t ("local " ++ name)
    have hx : d₁.Reaches Γ True x.2 (Γ.Declares x.1 t) := .declare hr₁.opened _ _ _
    have hr₂ : d.Reaches Γ True x.2 (v.Typed Γ ∧ Γ.Declares x.1 t) :=
      hr₁.seq hx (fun _ _ ↦ trivial) fun _ hv hd ↦ ⟨hv, hd⟩
    have hr₃ : d.Reaches Γ True (x.2.bind name (.variable x.1 t)) (v.Typed Γ ∧ Γ.Declares x.1 t) :=
      hr₂.seq (.bind hr₂.opened name _) (fun _ h ↦ h.2) fun _ h _ ↦ h
    exact hr₃.seq (.emit hr₃.opened (HwStmt.isPlain_setVariable _ _) _)
      (fun _ h ↦ HwStmt.typed_setVariable h.2 (h.1.coerce t)) fun _ _ h ↦ h

theorem reaches_assign (hΓ : Γ.Sees l) (hexpand : expand.Sound Γ) {target : AssignTarget} {e : Expr}
    (hgroup : Γ.program.CallsGrouped → e.Grouped l.program)
    (h : l.assign expand target e d = .ok d') (ho : d.isClosed = false) :
    d.Reaches Γ True d' True := by
  obtain ⟨name, x, type, v, d₁, -, hb, hv, rfl⟩ := assign_eq_ok h
  have hr := (reaches_value hΓ hexpand hgroup hv ho).addScope (typed_lookup hb)
  exact hr.seq (.emit hr.opened (HwStmt.isPlain_setVariable _ _) _)
    (fun _ h ↦ HwStmt.typed_setVariable h.2 (h.1.coerce type)) fun _ _ h ↦ h

theorem reaches_store (hΓ : Γ.Sees l) (hexpand : expand.Sound Γ) {array index value : Expr}
    (hi : Γ.program.CallsGrouped → index.Grouped l.program)
    (hv : Γ.program.CallsGrouped → value.Grouped l.program)
    (h : l.store expand array index value d = .ok d') (ho : d.isClosed = false) :
    d.Reaches Γ True d' True := by
  obtain ⟨name, x, element, length, d₁, d₂, i, d₃, v, d₄, cost, -, hb, h₁, h₂, h₃, h₄, hcost, rfl⟩ :=
    store_eq_ok h
  have hr₁ := (prepares_prepare hΓ hexpand index hi h₁ ho).addScope (typed_lookup hb)
  have hr₂ := prepares_prepare hΓ hexpand value hv h₂ hr₁.opened
  have hr₃ : d₂.Reaches Γ True d₃ (i.Typed Γ) := .ofEvaluates (expr_evaluates h₃ hr₂.opened)
  have hr₄ : d₃.Reaches Γ True d₄ (v.Typed Γ) := .ofEvaluates (expr_evaluates h₄ hr₃.opened)
  have hr : d.Reaches Γ True d₄ (Γ.Declares x (.array element length) ∧ i.Typed Γ ∧ v.Typed Γ) :=
    hr₁.seq (hr₂.seq (hr₃.seq hr₄ (fun _ _ ↦ trivial) fun _ hi hv ↦ And.intro hi hv)
      (fun _ h ↦ h) fun _ _ h ↦ h) (fun _ _ ↦ trivial) fun _ hx hiv ↦ ⟨hx.2, hiv⟩
  refine hr.seq (.emit hr.opened (fun _ _ ↦ rfl) _) (fun _ h ↦ ?_) fun _ _ h ↦ h
  exact ⟨element, .element h.1 h.2.1 (element?_of_cost hcost), h.2.2.coerce element⟩

theorem typed_returnTarget {type : HwType} {value : HwExpr} (hs : d.Scoped Γ)
    (ht : d.frame.returnType = some type) (hv : value.HasType Γ type) :
    (HwStmt.assign (returnTarget d) value).Typed Γ := by
  have hr := hs.frame.result type ht
  unfold Frame.HasResult at hr
  unfold returnTarget
  cases h : d.frame.returnVariable with
  | some name =>
    rw [h] at hr
    exact ⟨type, .variable hr, hv⟩
  | none =>
    rw [h] at hr
    exact ⟨type, .signal (.result hr), hv⟩

theorem evolves_ret (hΓ : Γ.Sees l) (hexpand : expand.Sound Γ) {value : Option Expr}
    (hgroup : ∀ e ∈ value, Γ.program.CallsGrouped → e.Grouped l.program)
    (h : l.ret expand value d = .ok d') (ho : d.isClosed = false) :
    ∃ B C R, Evolves Γ (d.Scoped Γ) B C R d d' (d'.Scoped Γ) := by
  have hleave {d₁ : Draft} (hr : d.Reaches Γ True d₁ True) :
      ∃ B C R, Evolves Γ (d.Scoped Γ) B C R d d₁.leave (d₁.leave.Scoped Γ) := by
    obtain ⟨B, C, he⟩ := hr.evolves
    exact ⟨_, _, _, (he.conseq (fun hs ↦ ⟨hs, trivial⟩) fun _ h ↦ h.1).seq
      (Draft.evolves_leave hr.opened) (fun _ h ↦ h) fun _ _ h ↦ h⟩
  obtain ⟨e, type, v, d₁, rfl, ht, hv, rfl⟩ | ⟨-, -, rfl⟩ | ⟨e, d₁, rfl, -, h₁, rfl⟩ := ret_eq_ok h
  · have hr := (reaches_value hΓ hexpand (hgroup e rfl) hv ho).addScope
      fun hs ↦ And.intro hs ht
    have hplain (value : HwExpr) : (HwStmt.assign (returnTarget d) value).IsPlain := by
      intro target slot
      unfold returnTarget
      split <;> rfl
    exact hleave (hr.seq (.emit hr.opened (hplain _) _)
      (fun _ h ↦ typed_returnTarget h.2.1 h.2.2 (h.1.coerce type)) fun _ _ h ↦ h)
  · exact hleave (.refl ho id)
  · exact hleave (prepares_prepare hΓ hexpand e (hgroup e rfl) h₁ ho)

theorem reaches_evalStmt (hΓ : Γ.Sees l) (hexpand : expand.Sound Γ) {e : Expr}
    (hgroup : Γ.program.CallsGrouped → e.Grouped l.program)
    (h : l.eval expand e d = .ok d') (ho : d.isClosed = false) : d.Reaches Γ True d' True := by
  obtain ⟨d₁, h₁, ⟨-, rfl⟩ | ⟨-, v, h₂⟩⟩ := eval_eq_ok h
  · exact prepares_prepare hΓ hexpand e hgroup h₁ ho
  · exact (reaches_eval hΓ hexpand hgroup h₁ h₂ ho).conseq id fun _ _ ↦ trivial

abbrev StmtEvolves (Γ : Interface) (d d' : Draft) : Prop :=
  ∃ B C R, Evolves Γ (d.Scoped Γ) B C R d d' (d'.Scoped Γ)

theorem StmtEvolves.ofReaches (h : d.Reaches Γ True d' True) : StmtEvolves Γ d d' := by
  obtain ⟨B, C, he⟩ := h.evolves
  exact ⟨B, C, [], he.conseq (fun hs ↦ ⟨hs, trivial⟩) fun _ hq ↦ hq.1⟩

theorem StmtEvolves.refl (Γ : Interface) (d : Draft) : StmtEvolves Γ d d :=
  ⟨[], [], [], .refl d id⟩

theorem StmtEvolves.trans {d'' : Draft} (h : StmtEvolves Γ d d') (h' : StmtEvolves Γ d' d'') :
    StmtEvolves Γ d d'' := by
  obtain ⟨B, C, R, he⟩ := h
  obtain ⟨B', C', R', he'⟩ := h'
  exact ⟨B ++ B', C ++ C', R ++ R', he.seq he' (fun _ h ↦ h) fun _ _ h ↦ h⟩

theorem stmt_of_closed {s : Stmt} (hc : d.isClosed = true) : l.stmt expand s d = .ok d := by
  cases s <;> rw [stmt, if_pos hc]

theorem evolves_of_open {s : Stmt} (hopen : ∀ {d d' : Draft}, l.stmt expand s d = .ok d' →
    d.isClosed = false → StmtEvolves Γ d d') {d d' : Draft} (h : l.stmt expand s d = .ok d') :
    StmtEvolves Γ d d' := by
  cases hc : d.isClosed with
  | false => exact hopen h hc
  | true =>
    rw [stmt_of_closed hc] at h
    obtain rfl := Except.ok.inj h
    exact .refl Γ d

theorem stmtOption_eq_ok {o : Option Stmt} (h : l.stmtOption expand o d = .ok d') :
    (o = none ∧ d' = d) ∨ ∃ s, o = some s ∧ l.stmt expand s d = .ok d' := by
  cases o with
  | none =>
    rw [stmtOption] at h
    exact .inl ⟨rfl, (Except.ok.inj h).symm⟩
  | some s =>
    rw [stmtOption] at h
    exact .inr ⟨s, rfl, h⟩

/-- What a list of statements does is done by its statements one after another. -/
theorem rel_of_stmtList {R : Draft → Draft → Prop} (hrefl : ∀ d, R d d)
    (htrans : ∀ {d d' d'' : Draft}, R d d' → R d' d'' → R d d'') {ss : List Stmt}
    (hss : ∀ s ∈ ss, ∀ {d d' : Draft}, l.stmt expand s d = .ok d' → R d d')
    (h : l.stmtList expand ss d = .ok d') : R d d' := by
  induction ss generalizing d with
  | nil =>
    rw [stmtList] at h
    exact Except.ok.inj h ▸ hrefl d
  | cons s rest ih =>
    obtain ⟨hs, hrest⟩ := List.forall_mem_cons.1 hss
    rw [stmtList] at h
    obtain ⟨d₁, h₁, h⟩ := Synthesis.bind_eq_ok.1 h
    exact htrans (hs h₁) (ih hrest h)

theorem exitLoop_eq_ok {construct : String} {record : LoopExits → Nat → LoopExits}
    (h : l.exitLoop construct record d = .ok d') : ∃ x rest, d.loops = x :: rest ∧
      d' = { d with loops := record x d.current :: rest, isClosed := true } := by
  unfold exitLoop at h
  split at h
  · cases h
  next x rest hl => exact ⟨x, rest, hl, (Except.ok.inj h).symm⟩

/-- What a branch goes through. It is left closed if control leaves both of its branches. -/
theorem branch_eq_ok {id : NodeId} {condition : Expr} {thenBranch : Stmt} {elseBranch : Option Stmt}
    (h : l.stmt expand (.branch id condition thenBranch elseBranch) d = .ok d')
    (ho : d.isClosed = false) :
    ∃ c d₁ d₂ elseState elseExit d₃, l.condition expand condition d = .ok (c, d₁) ∧
      l.stmt expand thenBranch ((d₁.addState "if: then").enter d₁.nextState) = .ok d₂ ∧
      l.elseStmt expand elseBranch d₂ = .ok (elseState, elseExit, d₃) ∧
      d' = { d₃.join "if: join" d₁.current
        (.branch c (.state d₁.nextState) (.state (elseState.getD d₃.nextState)))
        (d₂.exit?.toList ++ elseExit.toList) with
        isClosed := elseState.isSome && d₂.exit?.isNone && elseExit.isNone } := by
  rw [stmt, if_neg (by simp [ho])] at h
  obtain ⟨⟨c, d₁⟩, hc, h⟩ := Synthesis.bind_eq_ok.1 h
  obtain ⟨d₂, h₂, h⟩ := Synthesis.bind_eq_ok.1 h
  obtain ⟨⟨elseState, elseExit, d₃⟩, h₃, h⟩ := Synthesis.bind_eq_ok.1 h
  exact ⟨c, d₁, d₂, elseState, elseExit, d₃, hc, h₂, h₃, (Except.ok.inj h).symm⟩

theorem elseStmt_eq_ok {o : Option Stmt} {first exit : Option Nat}
    (h : l.elseStmt expand o d = .ok (first, exit, d')) :
    (o = none ∧ first = none ∧ exit = none ∧ d' = d) ∨
      ∃ s, o = some s ∧ first = some d.nextState ∧ exit = d'.exit? ∧
        l.stmt expand s ((d.addState "if: else").enter d.nextState) = .ok d' := by
  cases o with
  | none =>
    obtain ⟨rfl, hrest⟩ := Prod.mk.inj (Except.ok.inj h)
    obtain ⟨rfl, rfl⟩ := Prod.mk.inj hrest
    exact .inl ⟨rfl, rfl, rfl, rfl⟩
  | some s =>
    obtain ⟨d₁, h₁, h⟩ := Synthesis.bind_eq_ok.1 h
    obtain ⟨rfl, hrest⟩ := Prod.mk.inj (Except.ok.inj h)
    obtain ⟨rfl, rfl⟩ := Prod.mk.inj hrest
    exact .inr ⟨s, rfl, rfl, rfl, h₁⟩

theorem evolves_branch (hΓ : Γ.Sees l) (hexpand : expand.Sound Γ) {id : NodeId} {condition : Expr}
    {thenBranch : Stmt} {elseBranch : Option Stmt}
    (hgroup : Γ.program.CallsGrouped → condition.Grouped l.program)
    (hthen : ∀ {d d'}, l.stmt expand thenBranch d = .ok d' → StmtEvolves Γ d d')
    (helse : ∀ s ∈ elseBranch, ∀ {d d'}, l.stmt expand s d = .ok d' → StmtEvolves Γ d d')
    (h : l.stmt expand (.branch id condition thenBranch elseBranch) d = .ok d')
    (ho : d.isClosed = false) : StmtEvolves Γ d d' := by
  obtain ⟨c, d₁, d₂, elseState, elseExit, d₃, hc, h₂, h₃, rfl⟩ := branch_eq_ok h ho
  have hr := reaches_condition hΓ hexpand hgroup hc ho
  obtain ⟨B₀, C₀, he₀⟩ := hr.evolves
  obtain ⟨B, C, R, he⟩ := hthen h₂
  have hfirst : Evolves Γ (d.Scoped Γ) B₀ C₀ [] d d₁ (d₁.Scoped Γ ∧ c.HasType Γ .boolean) :=
    he₀.conseq (fun hs ↦ ⟨hs, trivial⟩) fun _ h ↦ h
  have hthen' : Evolves Γ (d₁.Scoped Γ ∧ c.HasType Γ .boolean) B C R
      ((d₁.addState "if: then").enter d₁.nextState) d₂ (d₂.Scoped Γ) :=
    he.conseq (fun hp ↦ (d₁.sameScope_fork "if: then").scoped hp.1) fun _ hq ↦ hq
  obtain ⟨-, rfl, rfl, rfl⟩ | ⟨s, rfl, rfl, rfl, h₄⟩ := elseStmt_eq_ok h₃
  · let t : Transition DraftTarget := .branch c (.state d₁.nextState) (.state d₃.nextState)
    have hjoin := Evolves.ifThen (t := t) "if: join" hr.opened hthen' (fun hp ↦ hp.2)
      (Transition.into_branch (by simp) (by simp))
    have hall := hfirst.seq hjoin (fun _ h ↦ h)
      fun _ _ hs ↦ (d₃.sameScope_join "if: join" d₁.current t d₃.exit?.toList).scoped hs
    rw [Option.toList_none, List.append_nil]
    exact ⟨_, _, _, hall.seq (Draft.evolves_close rfl _) (fun _ h ↦ h) fun _ _ h ↦ h⟩
  · obtain ⟨B', C', R', he'⟩ := helse s rfl h₄
    let t : Transition DraftTarget := .branch c (.state d₁.nextState) (.state d₂.nextState)
    have hjoin := Evolves.ifElse (t := t) "if: join" hr.opened hthen' he'
      (fun _ hs ↦ (d₂.sameScope_fork "if: else").scoped hs) (fun hp ↦ hp.2)
      (Transition.into_branch (by simp) (by simp))
    have hall := hfirst.seq hjoin (fun _ h ↦ h)
      fun _ _ hs ↦ (d₃.sameScope_join "if: join" d₁.current t
        (d₂.exit?.toList ++ d₃.exit?.toList)).scoped hs.2
    exact ⟨_, _, _, hall.seq (Draft.evolves_close rfl _) (fun _ h ↦ h) fun _ _ h ↦ h⟩

theorem stmt_whileLoop (id : NodeId) (condition : Expr) (body : Stmt) (d : Draft) :
    l.stmt expand (.whileLoop id condition body) d =
      l.stmt expand (.forLoop id none (some condition) none body) d := by
  rw [stmt, stmt]
  cases hc : d.isClosed with
  | true => rfl
  | false =>
    simp only [stmtOption, stepStmt, Synthesis.ok_bind, pure_bind, hc, Bool.false_eq_true, if_false]

def loopCondition (l : Lowering) (expand : Expansion) (condition : Option Expr) (d : Draft) :
    Synthesis (Option HwExpr × Draft) :=
  match condition with
  | some e => do
    let (c, d) ← l.condition expand e d
    return (some c, d)
  | none => .ok (none, d)

def loopTransition (c : Option HwExpr) (body exit : Nat) : Transition DraftTarget :=
  match c with
  | some c => .branch c (.state body) (.state exit)
  | none => .goto (.state body)

structure LoopParts (l : Lowering) (expand : Expansion) (condition : Option Expr)
    (step : Option Stmt) (body : Stmt) (d d' : Draft) where
  c : Option HwExpr
  afterCondition : Draft
  afterBody : Draft
  exits : LoopExits
  loops : List LoopExits
  again : Nat
  afterStep : Draft
  condition_eq : l.loopCondition expand condition (d.openState "loop: head") =
    .ok (c, afterCondition)
  body_eq : l.stmt expand body
    { (afterCondition.addState "loop: body").enter afterCondition.nextState with
      loops := ⟨[], []⟩ :: afterCondition.loops } = .ok afterBody
  loops_eq : afterBody.loops = exits :: loops
  step_eq : l.stepStmt expand step (d.openState "loop: head").current
    { afterBody with loops := loops } = .ok (again, afterStep)
  eq : d' = (afterStep.linkAll (afterBody.exit?.toList ++ exits.continues) again).join "loop: exit"
    afterCondition.current (loopTransition c afterCondition.nextState afterStep.nextState)
    exits.breaks

theorem loopParts_of_condition {condition : Option Expr} {step : Option Stmt} {body : Stmt}
    {d₀ d₁ : Draft} {c : Option HwExpr}
    (hc : l.loopCondition expand condition (d₀.openState "loop: head") = .ok (c, d₁))
    (h : (do
      let d₂ ← l.stmt expand body { (d₁.addState "loop: body").enter d₁.nextState with
        loops := ⟨[], []⟩ :: d₁.loops }
      match d₂.loops with
      | [] => .error (.inconsistent "loop exits missing")
      | exits :: loops =>
        let (again, d₃) ← l.stepStmt expand step (d₀.openState "loop: head").current
          { d₂ with loops := loops }
        return (d₃.linkAll (d₂.exit?.toList ++ exits.continues) again).join "loop: exit"
          d₁.current (loopTransition c d₁.nextState
            (d₃.linkAll (d₂.exit?.toList ++ exits.continues) again).nextState) exits.breaks) =
      Except.ok d') : Nonempty (LoopParts l expand condition step body d₀ d') := by
  obtain ⟨d₂, h₂, h⟩ := Synthesis.bind_eq_ok.1 h
  cases hl : d₂.loops with
  | nil =>
    rw [hl] at h
    cases h
  | cons exits loops =>
    rw [hl] at h
    obtain ⟨⟨again, d₃⟩, h₃, h⟩ := Synthesis.bind_eq_ok.1 h
    have heq := (Except.ok.inj h).symm
    rw [Draft.nextState_linkAll] at heq
    exact ⟨⟨c, d₁, d₂, exits, loops, again, d₃, hc, h₂, hl, h₃, heq⟩⟩

theorem stmt_forLoop {id : NodeId} {init step : Option Stmt} {condition : Option Expr} {body : Stmt}
    (h : l.stmt expand (.forLoop id init condition step body) d = .ok d')
    (ho : d.isClosed = false) : ∃ d₀, l.stmtOption expand init d = .ok d₀ ∧
      (d₀.isClosed = true ∧ d' = d₀ ∨
        d₀.isClosed = false ∧ Nonempty (LoopParts l expand condition step body d₀ d')) := by
  rw [stmt, if_neg (by simp [ho])] at h
  obtain ⟨d₀, h₀, h⟩ := Synthesis.bind_eq_ok.1 h
  refine ⟨d₀, h₀, ?_⟩
  split at h
  next hclosed => exact .inl ⟨hclosed, (Except.ok.inj h).symm⟩
  next hopen =>
    refine .inr ⟨by simpa using hopen, ?_⟩
    -- The condition is evaluated first, and what follows it is the same with and without it.
    cases condition with
    | none => exact loopParts_of_condition (c := none) rfl h
    | some e =>
      obtain ⟨⟨x, d₁⟩, hx, h⟩ := Synthesis.bind_eq_ok.1 h
      have hc : l.loopCondition expand (some e) (d₀.openState "loop: head") = .ok (some x, d₁) := by
        rw [loopCondition, hx]
        rfl
      exact loopParts_of_condition hc h

theorem stepStmt_eq_ok {step : Option Stmt} {head again : Nat}
    (h : l.stepStmt expand step head d = .ok (again, d')) :
    (step = none ∧ again = head ∧ d' = d) ∨ ∃ s d₁, step = some s ∧ again = d.nextState ∧
      l.stmt expand s ((d.addState "loop: step").enter d.nextState) = .ok d₁ ∧
      d' = d₁.linkAll d₁.exit?.toList head := by
  cases step with
  | none =>
    rw [stepStmt] at h
    obtain ⟨rfl, rfl⟩ := Prod.mk.inj (Except.ok.inj h)
    exact .inl ⟨rfl, rfl, rfl⟩
  | some s =>
    rw [stepStmt] at h
    obtain ⟨d₁, h₁, h⟩ := Synthesis.bind_eq_ok.1 h
    obtain ⟨rfl, rfl⟩ := Prod.mk.inj (Except.ok.inj h)
    exact .inr ⟨s, d₁, rfl, rfl, h₁, rfl⟩

theorem loopCondition_eq_ok {condition : Option Expr} {c : Option HwExpr}
    (h : l.loopCondition expand condition d = .ok (c, d')) :
    (condition = none ∧ c = none ∧ d' = d) ∨
      ∃ e y, condition = some e ∧ c = some y ∧ l.condition expand e d = .ok (y, d') := by
  cases condition with
  | none =>
    obtain ⟨rfl, rfl⟩ := Prod.mk.inj (Except.ok.inj h)
    exact .inl ⟨rfl, rfl, rfl⟩
  | some e =>
    obtain ⟨⟨y, d₁⟩, hy, h⟩ := Synthesis.bind_eq_ok.1 h
    obtain ⟨rfl, rfl⟩ := Prod.mk.inj (Except.ok.inj h)
    exact .inr ⟨e, y, rfl, rfl, hy⟩

theorem steps_stepStmt {step : Option Stmt} {head again : Nat}
    (hstep : ∀ s ∈ step, ∀ {d d'}, l.stmt expand s d = .ok d' → StmtEvolves Γ d d')
    (h : l.stepStmt expand step head d = .ok (again, d')) :
    ∃ B C R, Draft.Steps Γ (d.Scoped Γ) head B C R d again d' (d'.Scoped Γ) := by
  obtain ⟨-, rfl, rfl⟩ | ⟨s, d₁, rfl, rfl, h₁, rfl⟩ := stepStmt_eq_ok h
  · exact ⟨[], [], [], .none _ id⟩
  · obtain ⟨B, C, R, he⟩ := hstep s rfl h₁
    refine ⟨B, C, R, .some (he.conseq (fun hs ↦ (d.sameScope_fork "loop: step").scoped hs)
      fun _ hs ↦ ?_)⟩
    exact (Draft.sameScope_linkAll d₁.exit?.toList head d₁).scoped hs

theorem reaches_loopCondition (hΓ : Γ.Sees l) (hexpand : expand.Sound Γ) {condition : Option Expr}
    (hgroup : ∀ e ∈ condition, Γ.program.CallsGrouped → e.Grouped l.program) {c : Option HwExpr}
    (h : l.loopCondition expand condition d = .ok (c, d')) (ho : d.isClosed = false) :
    d.Reaches Γ True d' (∀ x ∈ c, x.HasType Γ .boolean) := by
  obtain ⟨-, rfl, rfl⟩ | ⟨e, x, rfl, rfl, hx⟩ := loopCondition_eq_ok h
  · exact .refl ho fun _ ↦ nofun
  · refine (reaches_condition hΓ hexpand (hgroup e rfl) hx ho).conseq id fun _ ht y hy ↦ ?_
    exact Option.mem_some.1 hy ▸ ht

theorem typed_loopTransition {c : Option HwExpr} (hc : ∀ x ∈ c, x.HasType Γ .boolean)
    (body exit : Nat) : (loopTransition c body exit).Typed Γ := by
  cases c with
  | none => trivial
  | some x => exact hc x rfl

theorem into_loopTransition (c : Option HwExpr) (body exit : Nat) :
    (loopTransition c body exit).Into {body, exit} := by
  cases c with
  | none => exact Transition.into_goto (by simp)
  | some x => exact Transition.into_branch (by simp) (by simp)

theorem evolves_loop (hΓ : Γ.Sees l) (hexpand : expand.Sound Γ) {step : Option Stmt}
    {condition : Option Expr} {body : Stmt}
    (hgroup : ∀ e ∈ condition, Γ.program.CallsGrouped → e.Grouped l.program)
    (hstep : ∀ s ∈ step, ∀ {d d'}, l.stmt expand s d = .ok d' → StmtEvolves Γ d d')
    (hbody : ∀ {d d'}, l.stmt expand body d = .ok d' → StmtEvolves Γ d d')
    (p : LoopParts l expand condition step body d d') (ho : d.isClosed = false) :
    StmtEvolves Γ d d' := by
  have hr := reaches_loopCondition hΓ hexpand hgroup p.condition_eq
    (Draft.isClosed_openState ho _)
  obtain ⟨B₀, C₀, he₀⟩ := hr.evolves
  obtain ⟨B, C, R, he⟩ := hbody p.body_eq
  obtain ⟨-, hloops⟩ := Draft.Grows.innerLoop
    (d := (p.afterCondition.addState "loop: body").enter p.afterCondition.nextState) he.toGrows
  obtain ⟨hexits, hrest⟩ := List.cons.inj (p.loops_eq.symm.trans hloops)
  obtain ⟨B', C', R', hs⟩ := steps_stepStmt hstep p.step_eq
  rw [hrest] at hs
  let t := loopTransition p.c p.afterCondition.nextState p.afterStep.nextState
  have hall := Evolves.loop (t := t) "loop: exit" ho
    (he₀.conseq (fun hs ↦ ⟨(d.sameScope_openState "loop: head").scoped hs, trivial⟩) fun _ h ↦ h)
    hr.opened he hs (fun _ hq ↦ ⟨hq.1.frame, hq.1.results⟩)
    (fun _ _ hq ↦ ⟨hq.frame, hq.results⟩) (fun hq ↦ typed_loopTransition hq.2 _ _)
    (into_loopTransition _ _ _)
  have hscope := (Draft.sameScope_linkAll (p.afterBody.exit?.toList ++ C) p.again
    p.afterStep).trans (Draft.sameScope_join _ "loop: exit" p.afterCondition.current t B)
  have hd := p.eq
  rw [hexits] at hd
  rw [hd]
  exact ⟨_, _, _, hall.conseq (fun h ↦ h) fun _ hq ↦ hscope.scoped hq.2.2⟩

theorem evolves_forLoop (hΓ : Γ.Sees l) (hexpand : expand.Sound Γ) {id : NodeId}
    {init step : Option Stmt} {condition : Option Expr} {body : Stmt}
    (hgroup : ∀ e ∈ condition, Γ.program.CallsGrouped → e.Grouped l.program)
    (hinit : ∀ s ∈ init, ∀ {d d'}, l.stmt expand s d = .ok d' → StmtEvolves Γ d d')
    (hstep : ∀ s ∈ step, ∀ {d d'}, l.stmt expand s d = .ok d' → StmtEvolves Γ d d')
    (hbody : ∀ {d d'}, l.stmt expand body d = .ok d' → StmtEvolves Γ d d')
    (h : l.stmt expand (.forLoop id init condition step body) d = .ok d')
    (ho : d.isClosed = false) : StmtEvolves Γ d d' := by
  obtain ⟨d₀, h₀, hloop⟩ := stmt_forLoop h ho
  have hi : StmtEvolves Γ d d₀ := by
    obtain ⟨-, rfl⟩ | ⟨s, rfl, h₀⟩ := stmtOption_eq_ok h₀
    · exact .refl Γ _
    · exact hinit s rfl h₀
  refine hi.trans ?_
  obtain ⟨-, rfl⟩ | ⟨ho₀, ⟨p⟩⟩ := hloop
  · exact .refl Γ _
  · exact evolves_loop hΓ hexpand hgroup hstep hbody p ho₀

/-- Lowering a statement keeps a draft well typed and changes its code by moves. -/
theorem evolves_stmt (hΓ : Γ.Sees l) (hexpand : expand.Sound Γ) (s : Stmt)
    (hgroup : Γ.program.CallsGrouped → s.Grouped l.program) {d d' : Draft}
    (h : l.stmt expand s d = .ok d') : StmtEvolves Γ d d' := by
  -- A statement in a closed draft is left out.
  refine evolves_of_open (fun {d d'} h ho ↦ ?_) h
  clear * - hΓ hexpand hgroup h ho
  induction s using Stmt.induction generalizing d d' with
  | declare id name type init =>
    rw [stmt, if_neg (by simp [ho])] at h
    refine .ofReaches (reaches_declare hΓ hexpand (fun e he hp ↦ (hgroup hp).expr ?_) h ho)
    exact Option.mem_toList.2 he
  | assign id target value =>
    rw [stmt, if_neg (by simp [ho])] at h
    exact .ofReaches (reaches_assign hΓ hexpand
      (fun hp ↦ (hgroup hp).expr (by simp [Stmt.exprs])) h ho)
  | store id array index value =>
    rw [stmt, if_neg (by simp [ho])] at h
    exact .ofReaches (reaches_store hΓ hexpand (fun hp ↦ (hgroup hp).expr (by simp [Stmt.exprs]))
      (fun hp ↦ (hgroup hp).expr (by simp [Stmt.exprs])) h ho)
  | branch id condition thenBranch elseBranch iht ihe =>
    refine evolves_branch hΓ hexpand (fun hp ↦ (hgroup hp).expr (by simp [Stmt.exprs]))
      (evolves_of_open (iht fun hp ↦ (hgroup hp).child (by simp [Stmt.children])))
      (fun s hmem {_ _} ↦ evolves_of_open (ihe s hmem fun hp ↦ (hgroup hp).child ?_)) h ho
    simpa [Stmt.children] using .inr hmem
  | whileLoop id condition body ih =>
    rw [stmt_whileLoop] at h
    refine evolves_forLoop hΓ hexpand (fun e he hp ↦ (hgroup hp).expr ?_) ?_ ?_
      (evolves_of_open (ih fun hp ↦ (hgroup hp).child (by simp [Stmt.children]))) h ho
    · simpa [Stmt.exprs, eq_comm] using he
    · intro s hs
      cases hs
    · intro s hs
      cases hs
  | forLoop id init condition step body ihi ihs ihb =>
    refine evolves_forLoop hΓ hexpand
      (fun e he hp ↦ (hgroup hp).expr (Option.mem_toList.2 he))
      (fun s hmem {_ _} ↦ evolves_of_open (ihi s hmem fun hp ↦ (hgroup hp).child ?_))
      (fun s hmem {_ _} ↦ evolves_of_open (ihs s hmem fun hp ↦ (hgroup hp).child ?_))
      (evolves_of_open (ihb fun hp ↦ (hgroup hp).child (by simp [Stmt.children]))) h ho
    · simpa [Stmt.children] using .inl hmem
    · simpa [Stmt.children] using .inr (.inr hmem)
  | ret id value =>
    rw [stmt, if_neg (by simp [ho])] at h
    exact evolves_ret hΓ hexpand (fun e he hp ↦ (hgroup hp).expr (Option.mem_toList.2 he)) h ho
  | eval id e =>
    rw [stmt, if_neg (by simp [ho])] at h
    exact .ofReaches (reaches_evalStmt hΓ hexpand
      (fun hp ↦ (hgroup hp).expr (by simp [Stmt.exprs])) h ho)
  | block id stmts ih =>
    rw [stmt, if_neg (by simp [ho])] at h
    exact rel_of_stmtList (.refl Γ) .trans
      (fun s hs {_ _} ↦ evolves_of_open (ih s hs fun hp ↦ (hgroup hp).child hs)) h
  | breakLoop id =>
    rw [stmt, if_neg (by simp [ho])] at h
    obtain ⟨x, rest, hl, rfl⟩ := exitLoop_eq_ok h
    have he := Draft.evolves_exitLoop (Γ := Γ) (B := [d.current]) (C := []) ho hl (by simp)
    exact ⟨_, _, _, by simpa [LoopExits.add] using he⟩
  | continueLoop id =>
    rw [stmt, if_neg (by simp [ho])] at h
    obtain ⟨x, rest, hl, rfl⟩ := exitLoop_eq_ok h
    have he := Draft.evolves_exitLoop (Γ := Γ) (B := []) (C := [d.current]) ho hl (by simp)
    exact ⟨_, _, _, by simpa [LoopExits.add] using he⟩
  | parallel id count index call results =>
    rw [stmt, if_neg (by simp [ho])] at h
    exact .ofReaches (reaches_parallel hΓ h ho)

end Lowering

end Fabric
