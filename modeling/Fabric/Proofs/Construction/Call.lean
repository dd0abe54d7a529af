import Fabric.Proofs.Construction.Arguments
import Fabric.Proofs.Syntax.Nodes

namespace Fabric

def Expansion.Sound (Γ : Interface) (expand : Expansion) : Prop :=
  ∀ {h : MemberHandle} {args : List Expr} {d d' : Draft} {v : Option Lowered},
    h ∈ Γ.program.tree.handles → expand h args d = .ok (v, d') → d.isClosed = false →
    d.Reaches Γ True d' (∀ w, v = some w → w.Typed Γ)

theorem Lowering.sound_noExpansion (Γ : Interface) : Expansion.Sound Γ Lowering.noExpansion :=
  fun _ h ↦ nomatch h

def Expr.Grouped (p : Program) (e : Expr) : Prop :=
  ∃ g, ∀ c ∈ e.nodes, c.isCall → p.callGroup c.id = some g

theorem Expr.Grouped.mono {p : Program} {e c : Expr} (h : e.Grouped p) (hsub : c.nodes ⊆ e.nodes) :
    c.Grouped p := by
  obtain ⟨g, hg⟩ := h
  exact ⟨g, fun x hx ↦ hg x (hsub hx)⟩

namespace Lowering

variable {l : Lowering} {Γ : Interface} {expand : Expansion} {d d' : Draft}

theorem mem_handles_of_callee {e : Expr} {h : MemberHandle} {args : List Expr}
    (hc : l.callee e = .ok (h, args)) : h ∈ l.program.tree.handles := by
  cases e with
  | call id target es =>
    obtain ⟨h', hr, hc⟩ := Synthesis.bind_eq_ok.1 hc
    obtain ⟨rfl, -⟩ := Prod.mk.inj (Except.ok.inj hc)
    exact SyntaxTree.mem_handles_of_resolveCall (require_eq_ok.1 hr)
  | _ => exact nomatch hc

/-- A call is expanded, or else takes a slot of its group. -/
theorem gather_eq_ok {e : Expr} {rest : List Expr} {batch : List (NodeId × Invocation)}
    (hg : l.gather expand (e :: rest) d = .ok (batch, d')) :
    ∃ h args, l.callee e = .ok (h, args) ∧
      ((l.plan.isInlined h = true ∧ ∃ value d₁, expand h args d = .ok (value, d₁) ∧
        l.gather expand rest (d₁.setResult e.id value) = .ok (batch, d')) ∨
      (l.plan.isInlined h = false ∧ ∃ group c d₁ others, l.program.callGroup e.id = some group ∧
        l.invocation h group args d = .ok (c, d₁) ∧
        l.gather expand rest d₁ = .ok (others, d') ∧ batch = (e.id, c) :: others)) := by
  unfold gather at hg
  obtain ⟨⟨h, args⟩, hcallee, hg⟩ := Synthesis.bind_eq_ok.1 hg
  refine ⟨h, args, hcallee, ?_⟩
  dsimp only at hg
  split at hg
  next hinlined =>
    obtain ⟨⟨value, d₁⟩, hvalue, hg⟩ := Synthesis.bind_eq_ok.1 hg
    exact .inl ⟨hinlined, value, d₁, hvalue, hg⟩
  next hinlined =>
    cases hgroup : l.program.callGroup e.id with
    | none =>
      rw [hgroup] at hg
      exact nomatch hg
    | some group =>
      rw [hgroup] at hg
      obtain ⟨⟨c, d₁⟩, hc, hg⟩ := Synthesis.bind_eq_ok.1 hg
      obtain ⟨⟨others, d₂⟩, hothers, hg⟩ := Synthesis.bind_eq_ok.1 hg
      obtain ⟨rfl, rfl⟩ := Prod.mk.inj (Except.ok.inj hg)
      exact .inr ⟨eq_false_of_ne_true hinlined, group, c, d₁, others, rfl, hc, hothers, rfl⟩

/-- The calls that are not expanded are made in one batch. -/
theorem invoke_eq_ok {calls : List Expr} (hi : l.invoke expand calls d = .ok d') :
    ∃ batch d₁, l.gather expand calls d = .ok (batch, d₁) ∧
      ((batch = [] ∧ d' = d₁) ∨ (batch ≠ [] ∧ d' = ((batch.map Prod.fst).zip
        (d₁.handshake (batch.map Prod.snd)).1).foldl (fun d x ↦ d.setResult x.1 x.2)
        (d₁.handshake (batch.map Prod.snd)).2)) := by
  unfold invoke at hi
  obtain ⟨⟨batch, d₁⟩, hbatch, hi⟩ := Synthesis.bind_eq_ok.1 hi
  refine ⟨batch, d₁, hbatch, ?_⟩
  dsimp only at hi
  split at hi
  next hempty => exact .inl ⟨List.isEmpty_iff.1 hempty, (Except.ok.inj hi).symm⟩
  next hempty => exact .inr ⟨fun h ↦ hempty (List.isEmpty_iff.2 h), (Except.ok.inj hi).symm⟩

structure TakesSlots (g : NodeId) (d : Draft) (batch : List (NodeId × Invocation)) (d' : Draft) :
    Prop where
  nodup : (batch.map fun x ↦ x.2.place).Nodup
  bounds : ∀ x ∈ batch, d.nextSlot (g, x.2.target) ≤ x.2.slot ∧
    x.2.slot < d'.nextSlot (g, x.2.target)

theorem reaches_gather (hΓ : Γ.Sees l) (hexpand : expand.Sound Γ) {calls : List Expr}
    {batch : List (NodeId × Invocation)} (hg : l.gather expand calls d = .ok (batch, d'))
    (ho : d.isClosed = false) :
    d.Reaches Γ True d' (∀ x ∈ batch, x.2.Sound Γ) ∧
      ∀ g, (∀ e ∈ calls, l.program.callGroup e.id = some g) → TakesSlots g d batch d' := by
  induction calls generalizing d d' batch with
  | nil =>
    obtain ⟨rfl, rfl⟩ := Prod.mk.inj (Except.ok.inj hg)
    exact ⟨.refl ho fun _ ↦ nofun, fun g _ ↦ ⟨List.nodup_nil, nofun⟩⟩
  | cons e rest ih =>
    obtain ⟨h, args, hcallee, ⟨-, v, d₁, hv, hg⟩ | ⟨-, group, c, d₁, others, hgroup, hc, hothers, rfl⟩⟩ :=
      gather_eq_ok hg
    · have h₁ := hexpand (hΓ.program ▸ mem_handles_of_callee hcallee) hv ho
      have h₂ := h₁.seq (.setResult h₁.opened e.id v) (fun _ h ↦ h) fun _ _ h ↦ h
      obtain ⟨h₃, hslots⟩ := ih hg h₂.opened
      refine ⟨h₂.seq h₃ (fun _ _ ↦ trivial) fun _ _ h ↦ h, fun g hall ↦ ?_⟩
      obtain ⟨hnodup, hbounds⟩ := hslots g fun x hx ↦ hall x (List.mem_cons_of_mem _ hx)
      refine ⟨hnodup, fun x hx ↦ ⟨?_, (hbounds x hx).2⟩⟩
      exact UInt32.le_trans (h₂.slots _) (hbounds x hx).1
    · obtain ⟨h₁, hslot, hnext⟩ := reaches_invocation hΓ (mem_handles_of_callee hcallee) hc ho
      obtain ⟨h₂, hslots⟩ := ih hothers h₁.opened
      refine ⟨h₁.seq h₂ (fun _ _ ↦ trivial) fun _ hs hall ↦
        List.forall_mem_cons.2 ⟨hs, hall⟩, fun g hall ↦ ?_⟩
      obtain ⟨hnodup, hbounds⟩ := hslots g fun x hx ↦ hall x (List.mem_cons_of_mem _ hx)
      have heq : group = g := Option.some.inj (hgroup.symm.trans (hall e List.mem_cons_self))
      subst heq
      refine ⟨List.nodup_cons.2 ⟨fun hmem ↦ ?_, hnodup⟩, List.forall_mem_cons.2
        ⟨⟨hslot ▸ UInt32.le_refl _, UInt32.lt_of_lt_of_le hnext (h₂.slots _)⟩, fun x hx ↦ ?_⟩⟩
      · obtain ⟨x, hx, hplace⟩ := List.mem_map.1 hmem
        obtain ⟨htarget, hsame⟩ := Prod.mk.inj hplace
        have hle := (hbounds x hx).1
        rw [htarget, hsame] at hle
        exact UInt32.not_le.2 hnext hle
      · exact ⟨UInt32.le_trans (h₁.slots _) (hbounds x hx).1, (hbounds x hx).2⟩

theorem reaches_setResults (pairs : List (NodeId × Option Lowered)) (ho : d.isClosed = false) :
    d.Reaches Γ (∀ x ∈ pairs, ∀ v, x.2 = some v → v.Typed Γ)
      (pairs.foldl (fun d x ↦ d.setResult x.1 x.2) d) True := by
  induction pairs generalizing d with
  | nil => exact .refl ho fun _ ↦ trivial
  | cons x rest ih =>
    have h₁ := Draft.Reaches.setResult (Γ := Γ) ho x.1 x.2
    exact (h₁.conseq (fun hall ↦ hall x List.mem_cons_self) fun _ h ↦ h).seq (ih h₁.opened)
      (fun hall _ y hy ↦ hall y (List.mem_cons_of_mem _ hy)) fun _ _ h ↦ h

theorem reaches_invoke (hΓ : Γ.Sees l) (hexpand : expand.Sound Γ) {calls : List Expr}
    (hgroup : Γ.program.CallsGrouped → ∃ g, ∀ e ∈ calls, l.program.callGroup e.id = some g)
    (hi : l.invoke expand calls d = .ok d') (ho : d.isClosed = false) :
    d.Reaches Γ True d' True := by
  obtain ⟨batch, d₁, hbatch, hd'⟩ := invoke_eq_ok hi
  obtain ⟨h₁, hslots⟩ := reaches_gather hΓ hexpand hbatch ho
  obtain ⟨-, rfl⟩ | ⟨hne, rfl⟩ := hd'
  · exact h₁.conseq id fun _ _ ↦ trivial
  · have hcalls : batch.map Prod.snd ≠ [] := by simpa using hne
    have h₂ := Draft.evolves_handshake (Γ := Γ) h₁.opened hcalls
    have h₃ : d.Reaches Γ True (d₁.handshake (batch.map Prod.snd)).2
        (∀ v, some v ∈ (d₁.handshake (batch.map Prod.snd)).1 → v.Typed Γ) := by
      refine h₁.seq (.ofPlainly (d₁.isClosed_handshake _) h₂) (fun _ hs ↦ ⟨?_, fun hp ↦ ?_⟩)
        fun _ _ h ↦ h
      · intro c hc
        obtain ⟨x, hx, rfl⟩ := List.mem_map.1 hc
        exact hs x hx
      · obtain ⟨g, hg⟩ := hgroup hp
        rw [List.map_map]
        exact (hslots g hg).nodup
    refine h₃.seq (reaches_setResults _ h₃.opened) (fun _ htyped x hx v hv ↦ ?_) fun _ _ h ↦ h
    exact htyped v (hv ▸ (List.of_mem_zip hx).2)

end Lowering

structure Ready.Within (r : Ready) (e : Expr) : Prop where
  calls : ∀ c ∈ r.calls, c ∈ e.nodes ∧ c.isCall
  guarded : ∀ g ∈ r.guarded, g ∈ e.nodes

namespace Ready.Within

variable {a b : Ready} {e : Expr}

theorem none (e : Expr) : Ready.none.Within e := ⟨nofun, nofun⟩

theorem append (ha : a.Within e) (hb : b.Within e) : (a.append b).Within e := by
  refine ⟨fun c hc ↦ ?_, fun g hg ↦ ?_⟩
  · rcases List.mem_append.1 hc with hc | hc
    · exact ha.calls c hc
    · exact hb.calls c hc
  · unfold Ready.append at hg
    cases hag : a.guarded with
    | none =>
      rw [hag] at hg
      exact hb.guarded g hg
    | some x =>
      rw [hag] at hg
      exact ha.guarded g (hag.trans hg)

theorem ofChild {c : Expr} (h : a.Within c) (hc : c ∈ e.children) : a.Within e :=
  ⟨fun x hx ↦ ⟨Expr.nodes_subset_of_mem_children hc (h.calls x hx).1, (h.calls x hx).2⟩,
    fun g hg ↦ Expr.nodes_subset_of_mem_children hc (h.guarded g hg)⟩

theorem guard (e : Expr) : (Ready.guard e).Within e :=
  ⟨nofun, fun _ hg ↦ Option.mem_some.1 hg ▸ e.mem_nodes_self⟩

end Ready.Within

namespace Draft

theorem within_readyList (d : Draft) {e : Expr} (es : List Expr)
    (h : ∀ a ∈ es, (d.ready a).Within e) : (d.readyList es).Within e := by
  induction es with
  | nil =>
    rw [readyList]
    exact .none e
  | cons a es ih =>
    rw [readyList]
    exact (h a List.mem_cons_self).append (ih fun x hx ↦ h x (List.mem_cons_of_mem _ hx))

theorem within_ready (d : Draft) (e : Expr) : (d.ready e).Within e := by
  induction e using Expr.induction with
  | literal | getLocal | getParameter | getField =>
    rw [ready]
    split <;> exact .none _
  | unary id op operand ih =>
    rw [ready]
    split
    · exact .none _
    · exact ih.ofChild (by simp [Expr.children])
  | binary id op lhs rhs ihl ihr =>
    have hl := ihl.ofChild (e := .binary id op lhs rhs) (by simp [Expr.children])
    have hr := ihr.ofChild (e := .binary id op lhs rhs) (by simp [Expr.children])
    rw [ready]
    split
    · exact .none _
    · split
      · split
        · exact hl
        · exact .guard _
      · exact hl.append hr
  | call id target args ih =>
    rw [ready]
    split
    · exact .none _
    · split
      · exact d.within_readyList args fun a ha ↦ (ih a ha).ofChild ha
      · refine ⟨fun c hc ↦ ?_, fun g hg ↦ ?_⟩
        · obtain rfl := List.mem_singleton.1 hc
          exact ⟨Expr.mem_nodes_self _, rfl⟩
        · cases hg
  | newArray id element length ih =>
    rw [ready]
    split
    · exact .none _
    · exact ih.ofChild (by simp [Expr.children])
  | arrayElement id array index iha ihi =>
    rw [ready]
    split
    · exact .none _
    · exact (iha.ofChild (by simp [Expr.children])).append (ihi.ofChild (by simp [Expr.children]))
  | arrayLength id array ih =>
    rw [ready]
    split
    · exact .none _
    · exact ih.ofChild (by simp [Expr.children])
  | conditional id condition ifTrue ifFalse ihc iht ihf =>
    have hc := ihc.ofChild (e := .conditional id condition ifTrue ifFalse) (by simp [Expr.children])
    have ht := iht.ofChild (e := .conditional id condition ifTrue ifFalse) (by simp [Expr.children])
    have hf := ihf.ofChild (e := .conditional id condition ifTrue ifFalse) (by simp [Expr.children])
    rw [ready]
    split
    · exact .none _
    · split
      · split
        · exact hc
        · exact .guard _
      · exact hc.append (ht.append hf)
  | cast id type operand ih =>
    rw [ready]
    split
    · exact .none _
    · exact ih.ofChild (by simp [Expr.children])

end Draft

namespace Lowering

variable {l : Lowering} {Γ : Interface} {expand : Expansion} {d d' : Draft}

/-- What storing the value of an expression goes through. -/
theorem storeIn_eq_ok {name : String} {type : HwType} {prepare : Expr → Draft → Synthesis Draft}
    {e : Expr} (h : l.storeIn name type prepare e d = .ok d') :
    ∃ d₁ v d₂, prepare e d = .ok d₁ ∧ l.expr e d₁ = .ok (v, d₂) ∧
      d' = d₂.emit (.setVariable name (v.coerce type)) v.cost := by
  unfold storeIn at h
  obtain ⟨d₁, h₁, h⟩ := Synthesis.bind_eq_ok.1 h
  obtain ⟨⟨v, d₂⟩, h₂, h⟩ := Synthesis.bind_eq_ok.1 h
  obtain ⟨-, -, h⟩ := Synthesis.bind_eq_ok.1 h
  exact ⟨d₁, v, d₂, h₁, h₂, (Except.ok.inj h).symm⟩

/-- What a guarded expression goes through: a conditional branches to states for both of its values, and a
short-circuit operator to one for its right operand. -/
inductive Guards (l : Lowering) (prepare : Expr → Draft → Synthesis Draft) (d : Draft) :
    Expr → Draft → Prop
  | conditional {id : NodeId} {condition ifTrue ifFalse : Expr} {type : HwType} {c : Lowered}
      {d₁ d₂ d₃ : Draft} : l.infer d (.conditional id condition ifTrue ifFalse) = .ok type →
      l.expr condition (d.temporary type "conditional value").2 = .ok (c, d₁) →
      l.storeIn (d.temporary type "conditional value").1 type prepare ifTrue
        (((d₁.reserve c.cost).addState "conditional: true").enter (d₁.reserve c.cost).nextState) =
          .ok d₂ →
      l.storeIn (d.temporary type "conditional value").1 type prepare ifFalse
        ((d₂.addState "conditional: false").enter d₂.nextState) = .ok d₃ →
      Guards l prepare d (.conditional id condition ifTrue ifFalse)
        ((d₃.join "conditional: join" (d₁.reserve c.cost).current (.branch (c.coerce .boolean)
          (.state (d₁.reserve c.cost).nextState) (.state d₂.nextState))
          [d₂.current, d₃.current]).setResult id
            (some (.ofVariable (d.temporary type "conditional value").1 type)))
  | binary {id : NodeId} {op : BinaryOp} {lhs rhs : Expr} {left : Lowered} {d₁ d₀ d₂ : Draft} :
      l.expr lhs (d.temporary .boolean "short-circuit value").2 = .ok (left, d₁) →
      d₀ = d₁.emit (.setVariable (d.temporary .boolean "short-circuit value").1
        (left.coerce .boolean)) left.cost →
      l.storeIn (d.temporary .boolean "short-circuit value").1 .boolean prepare rhs
        ((d₀.addState "evaluate right operand").enter d₀.nextState) = .ok d₂ →
      Guards l prepare d (.binary id op lhs rhs)
        ((d₂.join "short-circuit join" d₀.current
          (.branch (.variable (d.temporary .boolean "short-circuit value").1)
            (.state (if op = .logicAnd then (d₀.nextState, d₂.nextState)
              else (d₂.nextState, d₀.nextState)).1)
            (.state (if op = .logicAnd then (d₀.nextState, d₂.nextState)
              else (d₂.nextState, d₀.nextState)).2)) [d₂.current]).setResult id
            (some (.ofVariable (d.temporary .boolean "short-circuit value").1 .boolean)))

theorem guarded_eq_ok {prepare : Expr → Draft → Synthesis Draft} {e : Expr}
    (h : l.guarded prepare e d = .ok d') : l.Guards prepare d e d' := by
  unfold guarded at h
  cases e with
  | conditional id condition ifTrue ifFalse =>
    obtain ⟨type, htype, h⟩ := Synthesis.bind_eq_ok.1 h
    obtain ⟨⟨c, d₁⟩, hc, h⟩ := Synthesis.bind_eq_ok.1 h
    obtain ⟨d₂, htrue, h⟩ := Synthesis.bind_eq_ok.1 h
    obtain ⟨d₃, hfalse, h⟩ := Synthesis.bind_eq_ok.1 h
    obtain rfl := Except.ok.inj h
    exact .conditional htype hc htrue hfalse
  | binary id op lhs rhs =>
    obtain ⟨⟨left, d₁⟩, hleft, h⟩ := Synthesis.bind_eq_ok.1 h
    obtain ⟨d₂, hright, h⟩ := Synthesis.bind_eq_ok.1 h
    obtain rfl := Except.ok.inj h
    exact .binary hleft rfl hright
  | _ => cases h

def Prepares (Γ : Interface) (prepare : Expr → Draft → Synthesis Draft) (e : Expr) : Prop :=
  ∀ {d d' : Draft}, prepare e d = .ok d' → d.isClosed = false → d.Reaches Γ True d' True

theorem reaches_storeIn {name : String} {type : HwType} {prepare : Expr → Draft → Synthesis Draft}
    {e : Expr} (hprepare : Prepares Γ prepare e) (h : l.storeIn name type prepare e d = .ok d')
    (ho : d.isClosed = false) : d.Reaches Γ (Γ.Declares name type) d' True := by
  obtain ⟨d₁, v, d₂, h₁, h₂, rfl⟩ := storeIn_eq_ok h
  have hr₁ := hprepare h₁ ho
  have hr₂ : d₁.Reaches Γ True d₂ (v.Typed Γ) := .ofEvaluates (expr_evaluates h₂ hr₁.opened)
  have hr : d.Reaches Γ (Γ.Declares name type) d₂ (v.Typed Γ) :=
    (hr₁.conseq (fun _ ↦ trivial) fun _ h ↦ h).seq hr₂ (fun _ h ↦ h) fun _ _ h ↦ h
  exact hr.seq (.emit hr.opened (HwStmt.isPlain_setVariable _ _) _)
    (fun hd hv ↦ HwStmt.typed_setVariable hd (hv.coerce type)) fun _ _ h ↦ h

theorem reaches_guarded {prepare : Expr → Draft → Synthesis Draft} {e : Expr}
    (hprepare : ∀ c ∈ e.children, Prepares Γ prepare c)
    (h : l.guarded prepare e d = .ok d') (ho : d.isClosed = false) : d.Reaches Γ True d' True := by
  cases guarded_eq_ok h with
  | @conditional id condition ifTrue ifFalse type c d₁ d₂ d₃ _ hc htrue hfalse =>
    let t := d.temporary type "conditional value"
    have ht : d.Reaches Γ True t.2 (Γ.Declares t.1 type) := .temporary ho type _
    have hec : t.2.Reaches Γ True d₁ (c.Typed Γ) := .ofEvaluates (expr_evaluates hc ht.opened)
    have hready : d.Reaches Γ True (d₁.reserve c.cost) (Γ.Declares t.1 type ∧ c.Typed Γ) :=
      (ht.seq hec (fun _ _ ↦ trivial) fun _ hd hv ↦ And.intro hd hv).seq
        (.reserve hec.opened c.cost) (fun _ h ↦ h) fun _ _ h ↦ h
    have h₁ := reaches_storeIn (hprepare ifTrue (by simp [Expr.children])) htrue rfl
    have h₂ := reaches_storeIn (hprepare ifFalse (by simp [Expr.children])) hfalse rfl
    have hbranch : (d₁.reserve c.cost).Reaches Γ (Γ.Declares t.1 type ∧ c.Typed Γ)
        (d₃.join "conditional: join" (d₁.reserve c.cost).current (.branch (c.coerce .boolean)
          (.state (d₁.reserve c.cost).nextState) (.state d₂.nextState)) [d₂.current, d₃.current])
        True :=
      .ifElse _ hready.opened (h₁.conseq And.left fun _ h ↦ h) (h₂.conseq And.left fun _ h ↦ h)
        (fun hp ↦ hp.2.coerce .boolean) (Transition.into_branch (by simp) (by simp))
    have hall := hready.seq hbranch (fun _ h ↦ h) fun _ h _ ↦ h.1
    refine hall.seq (.setResult hall.opened id (some (.ofVariable t.1 type))) (fun _ hd v hv ↦ ?_)
      fun _ _ h ↦ h
    exact Option.some.inj hv ▸ .variable hd
  | @binary id op lhs rhs left d₁ d₀ d₂ hleft hemit hright =>
    let t := d.temporary .boolean "short-circuit value"
    have ht : d.Reaches Γ True t.2 (Γ.Declares t.1 .boolean) := .temporary ho .boolean _
    have hel : t.2.Reaches Γ True d₁ (left.Typed Γ) :=
      .ofEvaluates (expr_evaluates hleft ht.opened)
    have hready : d.Reaches Γ True d₀ (Γ.Declares t.1 .boolean) := by
      rw [hemit]
      exact (ht.seq hel (fun _ _ ↦ trivial) fun _ hd hv ↦ And.intro hd hv).seq
        (.emit hel.opened (HwStmt.isPlain_setVariable _ _) _)
        (fun _ hq ↦ HwStmt.typed_setVariable hq.1 (hq.2.coerce _)) fun _ hq _ ↦ hq.1
    have h₁ := reaches_storeIn (hprepare rhs (by simp [Expr.children])) hright rfl
    have hbranch (a b : Nat) (ha : a ∈ ({d₀.nextState, d₂.nextState} : Set Nat))
        (hb : b ∈ ({d₀.nextState, d₂.nextState} : Set Nat)) :
        d₀.Reaches Γ (Γ.Declares t.1 .boolean)
          (d₂.join "short-circuit join" d₀.current (.branch (.variable t.1) (.state a) (.state b))
            [d₂.current]) True :=
      .ifThen _ hready.opened h₁ (fun hd ↦ .variable hd) (Transition.into_branch ha hb)
    have hjoin : d₀.Reaches Γ (Γ.Declares t.1 .boolean)
        (d₂.join "short-circuit join" d₀.current (.branch (.variable t.1)
          (.state (if op = .logicAnd then (d₀.nextState, d₂.nextState)
            else (d₂.nextState, d₀.nextState)).1)
          (.state (if op = .logicAnd then (d₀.nextState, d₂.nextState)
            else (d₂.nextState, d₀.nextState)).2)) [d₂.current]) True := by
      split
      · exact hbranch _ _ (by simp) (by simp)
      · exact hbranch _ _ (by simp) (by simp)
    have hall := hready.seq hjoin (fun _ h ↦ h) fun _ h _ ↦ h
    refine hall.seq (.setResult hall.opened id (some (.ofVariable t.1 .boolean)))
      (fun _ hd v hv ↦ ?_) fun _ _ h ↦ h
    exact Option.some.inj hv ▸ .variable hd

theorem prepareUpTo_eq_ok {rounds : Nat} {e : Expr}
    (h : l.prepareUpTo expand (rounds + 1) e d = .ok d') :
    (d.ready e = ⟨[], none⟩ ∧ d' = d) ∨
      (∃ g d₁, d.ready e = ⟨[], some g⟩ ∧ l.guarded (l.prepareUpTo expand rounds) g d = .ok d₁ ∧
        l.prepareUpTo expand rounds e d₁ = .ok d') ∨
      ∃ d₁, (d.ready e).calls ≠ [] ∧ l.invoke expand (d.ready e).calls d = .ok d₁ ∧
        l.prepareUpTo expand rounds e d₁ = .ok d' := by
  rw [prepareUpTo] at h
  split at h
  next hready => exact .inl ⟨hready, (Except.ok.inj h).symm⟩
  next g hready =>
    obtain ⟨d₁, hg, h⟩ := Synthesis.bind_eq_ok.1 h
    exact .inr (.inl ⟨g, d₁, hready, hg, h⟩)
  next calls guarded hnone hsome hready =>
    obtain ⟨d₁, hcalls, h⟩ := Synthesis.bind_eq_ok.1 h
    rw [hready]
    refine .inr (.inr ⟨d₁, ?_, hcalls, h⟩)
    rintro rfl
    cases guarded with
    | none => exact hnone rfl rfl
    | some g => exact hsome g rfl rfl

theorem prepares_prepareUpTo (hΓ : Γ.Sees l) (hexpand : expand.Sound Γ) (rounds : Nat) (e : Expr)
    (hgroup : Γ.program.CallsGrouped → e.Grouped l.program) :
    Prepares Γ (l.prepareUpTo expand rounds) e := by
  induction rounds generalizing e with
  | zero =>
    intro d d' h ho
    obtain rfl := Except.ok.inj h
    exact .refl ho id
  | succ rounds ih =>
    intro d d' h ho
    have hwithin := d.within_ready e
    obtain ⟨-, rfl⟩ | ⟨g, d₁, hready, hg, h⟩ | ⟨d₁, -, hcalls, h⟩ := prepareUpTo_eq_ok h
    · exact .refl ho id
    · have hmem : g ∈ e.nodes := hwithin.guarded g (by rw [hready]; rfl)
      have h₁ : d.Reaches Γ True d₁ True := by
        refine reaches_guarded (fun c hc ↦ ih c fun hp ↦ ?_) hg ho
        exact (hgroup hp).mono (List.Subset.trans (Expr.nodes_subset_of_mem_children hc)
          (Expr.nodes_subset hmem))
      exact h₁.seq (ih e hgroup h h₁.opened) (fun _ h ↦ h) fun _ _ h ↦ h
    · have h₁ : d.Reaches Γ True d₁ True := by
        refine reaches_invoke hΓ hexpand (fun hp ↦ ?_) hcalls ho
        obtain ⟨g, hg⟩ := hgroup hp
        refine ⟨g, fun c hc ↦ ?_⟩
        obtain ⟨hmem, hcall⟩ := hwithin.calls c hc
        exact hg c hmem hcall
      exact h₁.seq (ih e hgroup h h₁.opened) (fun _ h ↦ h) fun _ _ h ↦ h

theorem prepares_prepare (hΓ : Γ.Sees l) (hexpand : expand.Sound Γ) (e : Expr)
    (hgroup : Γ.program.CallsGrouped → e.Grouped l.program) :
    Prepares Γ (l.prepare expand) e :=
  prepares_prepareUpTo hΓ hexpand _ e hgroup

end Lowering

end Fabric
