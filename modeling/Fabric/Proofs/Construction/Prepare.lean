import Fabric.Proofs.Construction.Account
import Mathlib.Data.List.Flatten

namespace Fabric

open Synthesis
open scoped List

theorem Ready.append_eq_none {a b : Ready} : a.append b = .none ↔ a = .none ∧ b = .none := by
  obtain ⟨calls, guarded⟩ := a
  obtain ⟨calls', guarded'⟩ := b
  cases guarded <;> cases guarded' <;> simp [append, none]

/-- What is ready among some nodes: calls whose arguments are not open, and a guarded expression
whose deciding operand is not. -/
structure Ready.Apt (d : Draft) (es : List Expr) (r : Ready) : Prop where
  sub : r.calls <+ es
  calls : ∀ c ∈ r.calls, c.isCall ∧ d.isEvaluated c = false ∧
    ∀ a ∈ c.children, d.isPending a = false
  guarded : ∀ g ∈ r.guarded, g ∈ es ∧ g.isGuarded ∧ d.isEvaluated g = false ∧
    ∀ c ∈ g.children.head?, d.isPending c = false

namespace Ready.Apt

variable {d : Draft} {es es' : List Expr} {a b : Ready}

theorem none (es : List Expr) : Ready.none.Apt d es := by
  refine ⟨List.nil_sublist _, List.forall_mem_nil _, ?_⟩
  intro g hg
  cases hg

theorem append (ha : a.Apt d es) (hb : b.Apt d es') : (a.append b).Apt d (es ++ es') where
  sub := ha.sub.append hb.sub
  calls := List.forall_mem_append.2 ⟨ha.calls, hb.calls⟩
  guarded := by
    intro g hg
    unfold Ready.append at hg
    cases hag : a.guarded with
    | none =>
      rw [hag] at hg
      obtain ⟨hmem, hrest⟩ := hb.guarded g hg
      exact ⟨List.mem_append_right _ hmem, hrest⟩
    | some x =>
      rw [hag] at hg
      obtain ⟨hmem, hrest⟩ := ha.guarded g (hag.trans hg)
      exact ⟨List.mem_append_left _ hmem, hrest⟩

theorem mono (h : a.Apt d es) (hsub : es <+ es') : a.Apt d es' where
  sub := h.sub.trans hsub
  calls := h.calls
  guarded g hg := ⟨hsub.subset (h.guarded g hg).1, (h.guarded g hg).2⟩

end Ready.Apt

namespace Draft

variable {d : Draft} {e : Expr}

theorem readyList_singleton (a : Expr) : d.readyList [a] = d.ready a := by
  simp [readyList, Ready.append, Ready.none]

theorem readyList_pair (a b : Expr) : d.readyList [a, b] = (d.ready a).append (d.ready b) := by
  simp [readyList, Ready.append, Ready.none]

theorem isEvaluated_of_isPending (h : d.isPending e = true) : d.isEvaluated e = false := by
  rw [isPending_eq, Bool.and_eq_true] at h
  simpa using h.1

mutual

/-- The calls and guarded expressions that are not evaluated and not in an expression that is. -/
def openNodes (d : Draft) (e : Expr) : List Expr :=
  if d.isEvaluated e then []
  else
    (if e.isCall || e.isGuarded then [e] else []) ++
      match e with
      | .literal _ _ | .getLocal _ _ | .getParameter _ _ | .getField _ _ => []
      | .unary _ _ operand | .newArray _ _ operand | .arrayLength _ operand | .cast _ _ operand =>
        openNodes d operand
      | .binary _ _ lhs rhs | .arrayElement _ lhs rhs => openNodes d lhs ++ openNodes d rhs
      | .call _ _ args => openNodesList d args
      | .conditional _ condition ifTrue ifFalse =>
        openNodes d condition ++ (openNodes d ifTrue ++ openNodes d ifFalse)

def openNodesList (d : Draft) : List Expr → List Expr
  | [] => []
  | e :: es => openNodes d e ++ openNodesList d es

end

theorem openNodesList_eq (d : Draft) (es : List Expr) :
    d.openNodesList es = es.flatMap d.openNodes := by
  induction es with
  | nil => rfl
  | cons e es ih => rw [openNodesList, ih, List.flatMap_cons]

theorem openNodes_eq (d : Draft) (e : Expr) :
    d.openNodes e = if d.isEvaluated e then [] else
      (if e.isCall || e.isGuarded then [e] else []) ++ e.children.flatMap d.openNodes := by
  cases e <;> rw [openNodes] <;> simp [Expr.children, openNodesList_eq]

theorem openNodes_sublist (d : Draft) (e : Expr) : d.openNodes e <+ e.nodes := by
  induction e using Expr.induction_children with
  | step e ih =>
    rw [openNodes_eq, e.nodes_eq]
    split
    · exact List.nil_sublist _
    · have hself : (if e.isCall || e.isGuarded then [e] else []) <+ [e] := by
        split
        · exact List.Sublist.refl _
        · exact List.nil_sublist _
      exact hself.append (List.Sublist.flatMap_right _ ih)

/-- What is ready in an expression that is open: the expression itself, as a call or as a guarded expression,
or what is ready in some of its operands, one of which is open. -/
theorem ready_of_pending (hp : d.isPending e = true) :
    (e.isCall ∧ (∀ a ∈ e.children, d.isPending a = false) ∧ d.ready e = .call e) ∨
      (e.isGuarded ∧ (∀ c ∈ e.children.head?, d.isPending c = false) ∧ d.ready e = .guard e) ∨
      ∃ es, es <+ e.children ∧ es.any d.isPending = true ∧ d.ready e = d.readyList es := by
  have hnot : ¬(!d.isPending e) = true := by simp [hp]
  have hchildren : e.isCall = true ∨ e.children.any d.isPending = true := by
    rw [isPending_eq, Bool.and_eq_true] at hp
    simpa using hp.2
  cases e with
  | literal | getLocal | getParameter | getField => simp [isPending] at hp
  | unary id op operand | newArray id type operand | arrayLength id operand
  | cast id type operand =>
    refine .inr (.inr ⟨[operand], .refl _, hchildren.resolve_left Bool.false_ne_true, ?_⟩)
    rw [ready, if_neg hnot, readyList_singleton]
  | arrayElement id array index =>
    refine .inr (.inr ⟨[array, index], .refl _, hchildren.resolve_left Bool.false_ne_true, ?_⟩)
    rw [ready, if_neg hnot, readyList_pair]
  | call id target args =>
    rw [ready, if_neg hnot]
    split
    next hany => exact .inr (.inr ⟨args, .refl _, hany, rfl⟩)
    next hnone => exact .inl ⟨rfl, by simpa [Expr.children] using hnone, rfl⟩
  | binary id op lhs rhs =>
    rw [ready, if_neg hnot]
    split
    next hg =>
      split
      next hl => exact .inr (.inr ⟨[lhs], by simp [Expr.children], by simpa using hl, (readyList_singleton lhs).symm⟩)
      next hl => exact .inr (.inl ⟨hg, by simpa [Expr.children] using hl, rfl⟩)
    next =>
      exact .inr (.inr ⟨[lhs, rhs], .refl _, hchildren.resolve_left Bool.false_ne_true,
        (readyList_pair lhs rhs).symm⟩)
  | conditional id condition ifTrue ifFalse =>
    rw [ready, if_neg hnot]
    split
    next hg =>
      split
      next hc =>
        exact .inr (.inr ⟨[condition], by simp [Expr.children], by simpa using hc,
          (readyList_singleton condition).symm⟩)
      next hc => exact .inr (.inl ⟨hg, by simpa [Expr.children] using hc, rfl⟩)
    next =>
      refine .inr (.inr ⟨[condition, ifTrue, ifFalse], .refl _,
        hchildren.resolve_left Bool.false_ne_true, ?_⟩)
      rw [readyList, readyList_pair]

theorem ready_of_not_pending (hp : d.isPending e = false) : d.ready e = .none := by
  cases e <;> rw [ready, hp] <;> rfl

theorem apt_readyList {f : Expr → List Expr} {es : List Expr}
    (h : ∀ e ∈ es, (d.ready e).Apt d (f e)) : (d.readyList es).Apt d (es.flatMap f) := by
  induction es with
  | nil =>
    rw [readyList]
    exact .none _
  | cons e es ih =>
    obtain ⟨he, hes⟩ := List.forall_mem_cons.1 h
    rw [readyList, List.flatMap_cons]
    exact he.append (ih hes)

theorem apt_ready_open (d : Draft) (e : Expr) : (d.ready e).Apt d (d.openNodes e) := by
  induction e using Expr.induction_children with
  | step e ih =>
    cases hp : d.isPending e with
    | false =>
      rw [ready_of_not_pending hp]
      exact .none _
    | true =>
      have hev := isEvaluated_of_isPending hp
      rw [openNodes_eq, hev, if_neg Bool.false_ne_true]
      rcases ready_of_pending hp with ⟨hcall, hargs, hr⟩ | ⟨hguarded, hdecider, hr⟩ | ⟨es, hes, -, hr⟩
      · rw [hr, hcall, Bool.true_or, if_pos rfl]
        refine ⟨?_, List.forall_mem_singleton.2 ⟨hcall, hev, hargs⟩, ?_⟩
        · exact List.sublist_append_left _ _
        · intro g hg
          cases hg
      · rw [hr, hguarded, Bool.or_true, if_pos rfl]
        refine ⟨List.nil_sublist _, List.forall_mem_nil _, ?_⟩
        intro g hg
        obtain rfl := Option.mem_some.1 hg
        exact ⟨List.mem_cons_self, hguarded, hev, hdecider⟩
      · rw [hr]
        refine (apt_readyList fun c hc ↦ ih c (hes.subset hc)).mono ?_
        exact (hes.flatMap _).trans (List.sublist_append_right _ _)

theorem apt_ready (d : Draft) (e : Expr) : (d.ready e).Apt d e.nodes :=
  (d.apt_ready_open e).mono (d.openNodes_sublist e)

theorem readyList_ne_none {es : List Expr}
    (h : ∀ e ∈ es, d.isPending e = true → d.ready e ≠ .none) (hany : es.any d.isPending = true) :
    d.readyList es ≠ .none := by
  induction es with
  | nil => cases hany
  | cons e es ih =>
    obtain ⟨he, hes⟩ := List.forall_mem_cons.1 h
    rw [List.any_cons, Bool.or_eq_true] at hany
    rw [readyList, ne_eq, Ready.append_eq_none, not_and_or]
    exact hany.imp he (ih hes)

theorem ready_ne_none (hp : d.isPending e = true) : d.ready e ≠ .none := by
  induction e using Expr.induction_children with
  | step e ih =>
    rcases ready_of_pending hp with ⟨-, -, hr⟩ | ⟨-, -, hr⟩ | ⟨es, hes, hany, hr⟩
    · rw [hr]
      nofun
    · rw [hr]
      nofun
    · rw [hr]
      exact readyList_ne_none (fun c hc ↦ ih c (hes.subset hc)) hany

def unevaluated (d : Draft) (e : Expr) : Nat :=
  e.nodes.countP fun c ↦ !d.isEvaluated c

theorem unevaluated_le {d' : Draft} (h : ∀ id, (d.result? id).isSome → (d'.result? id).isSome)
    (e : Expr) : d'.unevaluated e ≤ d.unevaluated e := by
  apply List.countP_mono_left
  intro c _ hc
  rw [Bool.not_eq_true'] at hc ⊢
  by_contra hev
  rw [Bool.not_eq_false] at hev
  rw [isEvaluated, h c.id hev] at hc
  cases hc

theorem unevaluated_lt {d' : Draft} (h : ∀ id, (d.result? id).isSome → (d'.result? id).isSome)
    {e c : Expr} (hc : c ∈ e.nodes) (hev : d.isEvaluated c = false) (hev' : d'.isEvaluated c) :
    d'.unevaluated e < d.unevaluated e := by
  refine countP_lt ?_ hc (by simp [hev']) (by simp [hev])
  intro x _ hx
  rw [Bool.not_eq_true'] at hx ⊢
  by_contra hold
  rw [Bool.not_eq_false] at hold
  rw [isEvaluated, h x.id hold] at hx
  cases hx

/-- An operand has fewer nodes that are not evaluated than an expression that is not evaluated. -/
theorem unevaluated_child_lt {e c : Expr} (hc : c ∈ e.children) (hev : d.isEvaluated e = false) :
    d.unevaluated c < d.unevaluated e := by
  unfold unevaluated
  rw [e.nodes_eq, List.countP_cons, hev]
  have hsub := (ParentIndex.sublist_flatMap (f := Expr.nodes) hc).countP_le
    (p := fun c ↦ !d.isEvaluated c)
  simp only [Bool.not_false, if_pos]
  omega

theorem unevaluated_le_of_mem {e c : Expr} (hc : c ∈ e.nodes) :
    d.unevaluated c ≤ d.unevaluated e :=
  (Expr.nodes_sublist hc).countP_le

end Draft

namespace Lowering

variable {l : Lowering} {expand : Expansion} {t : Stmt} {d : Draft}

def Settles (l : Lowering) (t : Stmt) (e : Expr) (d d' : Draft) : Prop :=
  d'.isPending e = false ∧ d'.Balanced l t [] ∧ d.Spends [t.id] d'

theorem meets_storeIn {name : String} {type : HwType} {prepare : Expr → Draft → Synthesis Draft}
    {e : Expr} (h : (prepare e d).Meets (l.Settles t e d)) :
    (l.storeIn name type prepare e d).Meets fun d' ↦ d'.Balanced l t [] ∧ d.Spends [t.id] d' := by
  refine h.bind ?_
  rintro d₁ ⟨hpending, hb, hd₁⟩
  refine (l.meets_expr hpending).bind ?_
  rintro ⟨v, d₂⟩ hd₂
  refine (v.meets_checkCoerce type).bind fun _ _ ↦ ?_
  have hemit := hd₂.trans (d₂.spends_emit (.setVariable name (v.coerce type)) v.cost)
  exact meets_ok ⟨hb.quiet hemit, hd₁.trans (hemit.mono (List.nil_subset _))⟩

theorem meets_guarded {prepare : Expr → Draft → Synthesis Draft} {g : Expr} (hg : g.isGuarded)
    (hdecider : ∀ c ∈ g.children.head?, d.isPending c = false) (hb : d.Balanced l t [])
    (hprepare : ∀ c ∈ g.children, ∀ d', d.Spends [t.id] d' → d'.Balanced l t [] →
      (prepare c d').Meets (l.Settles t c d')) :
    (l.guarded prepare g d).Meets fun d' ↦
      d'.Balanced l t [] ∧ d.Spends [t.id] d' ∧ d'.isEvaluated g := by
  have hfork (d : Draft) (label : String) :
      d.Spends [] ((d.addState label).enter d.nextState) := .of_eq rfl rfl rfl
  have hjoin (d : Draft) (label : String) (source : Nat) (x : Transition DraftTarget)
      (exits : List Nat) : d.Spends [] (d.join label source x exits) :=
    .of_sameScope (d.sameScope_join label source x exits)
  have hset {d' : Draft} {e : Expr} {v : Option Lowered} (hb : d'.Balanced l t [])
      (hd : d.Spends [t.id] d') :
      (d'.setResult e.id v).Balanced l t [] ∧ d.Spends [t.id] (d'.setResult e.id v) ∧
        (d'.setResult e.id v).isEvaluated e :=
    ⟨hb.setResult _ _, hd.trans (d'.spends_setResult (List.cons_ne_nil _ _) _ _),
      d'.isEvaluated_setResult_self rfl v⟩
  have hsub : ([] : List NodeId) ⊆ [t.id] := List.nil_subset _
  cases g with
  | conditional id condition ifTrue ifFalse =>
    unfold guarded
    refine (l.meets_infer d _).bind ?_
    intro type _
    dsimp only
    let x := d.temporary type "conditional value"
    have hx : d.Spends [] x.2 := d.spends_temporary type _
    refine (l.meets_expr (hx.isPending (hdecider condition rfl))).bind ?_
    rintro ⟨c, d₁⟩ hd₁
    have hready := (hx.trans hd₁).trans (d₁.spends_reserve c.cost)
    have htrue := hready.trans (hfork _ "conditional: true")
    refine (meets_storeIn (hprepare ifTrue (by simp [Expr.children]) _ (htrue.mono hsub)
      (hb.quiet htrue))).bind ?_
    rintro d₂ ⟨hb₂, hd₂⟩
    have hd₂ := (htrue.mono hsub).trans hd₂
    have hfalse := hfork d₂ "conditional: false"
    refine (meets_storeIn (hprepare ifFalse (by simp [Expr.children]) _
      (hd₂.trans (hfalse.mono hsub)) (hb₂.quiet hfalse))).bind ?_
    rintro d₃ ⟨hb₃, hd₃⟩
    have hd₃ := (hd₂.trans (hfalse.mono hsub)).trans hd₃
    have hjoined := hjoin d₃ "conditional: join" (d₁.reserve c.cost).current
      (.branch (c.coerce .boolean) (.state (d₁.reserve c.cost).nextState) (.state d₂.nextState))
      [d₂.current, d₃.current]
    exact meets_ok (hset (e := .conditional id condition ifTrue ifFalse) (hb₃.quiet hjoined)
      (hd₃.trans (hjoined.mono hsub)))
  | binary id op lhs rhs =>
    unfold guarded
    dsimp only
    let x := d.temporary .boolean "short-circuit value"
    have hx : d.Spends [] x.2 := d.spends_temporary .boolean _
    refine (l.meets_expr (hx.isPending (hdecider lhs rfl))).bind ?_
    rintro ⟨left, d₁⟩ hd₁
    have hready := (hx.trans hd₁).trans
      (d₁.spends_emit (.setVariable x.1 (left.coerce .boolean)) left.cost)
    have hright := hready.trans (hfork _ "evaluate right operand")
    refine (meets_storeIn (hprepare rhs (by simp [Expr.children]) _ (hright.mono hsub)
      (hb.quiet hright))).bind ?_
    rintro d₂ ⟨hb₂, hd₂⟩
    have hd₂ := (hright.mono hsub).trans hd₂
    have hjoined (x : Transition DraftTarget) := hjoin d₂ "short-circuit join"
      (d₁.emit (.setVariable (d.temporary .boolean "short-circuit value").1
        (left.coerce .boolean)) left.cost).current x [d₂.current]
    exact meets_ok (hset (e := .binary id op lhs rhs) (hb₂.quiet (hjoined _))
      (hd₂.trans ((hjoined _).mono hsub)))
  | _ => cases hg

/-- Preparation leaves no open call if there are more rounds than nodes to evaluate. -/
theorem meets_prepareUpTo (ha : l.AffordsOwn t) (hs : t.isParallel = false)
    (hnames : l.program.NamesDistinct) (hexpand : expand.Consistent l)
    (hn : (t.ownNodes.map Expr.id).Nodup) {rounds : Nat} {e : Expr} (he : e.nodes <+ t.ownNodes)
    (hb : d.Balanced l t []) (hrounds : d.unevaluated e < rounds) :
    (l.prepareUpTo expand rounds e d).Meets (l.Settles t e d) := by
  induction rounds generalizing e d with
  | zero => omega
  | succ rounds ih =>
    have hapt := d.apt_ready e
    rw [prepareUpTo]
    cases hready : d.ready e with
    | mk calls guarded =>
      rw [hready] at hapt
      cases calls with
      | nil =>
        cases guarded with
        | none =>
          refine meets_ok ⟨?_, hb, .refl d⟩
          by_contra hp
          exact Draft.ready_ne_none (by simpa using hp) hready
        | some g =>
          obtain ⟨hmem, hg, hev, hdecider⟩ := hapt.guarded g rfl
          have hsub := (Expr.nodes_sublist hmem).trans he
          refine (meets_guarded hg hdecider hb ?_).bind ?_
          · intro c hc d' hd' hb'
            have hchild : c.nodes <+ g.nodes := by
              rw [g.nodes_eq]
              exact (ParentIndex.sublist_flatMap hc).cons _
            refine ih (hchild.trans hsub) hb' ?_
            have h₁ := Draft.unevaluated_le hd'.results c
            have h₂ := Draft.unevaluated_child_lt hc hev
            have h₃ := Draft.unevaluated_le_of_mem (d := d) hmem
            omega
          · rintro d₁ ⟨hb₁, hd₁, hev₁⟩
            have hlt := Draft.unevaluated_lt hd₁.results hmem hev hev₁
            refine (ih he hb₁ (by omega)).mono ?_
            rintro d₂ ⟨hp₂, hb₂, hd₂⟩
            exact ⟨hp₂, hb₂, hd₁.trans hd₂⟩
      | cons c rest =>
        have hissuable : Issuable t d (c :: rest) := by
          refine ⟨fun x hx ↦ (hapt.sub.trans he).subset hx, fun x hx ↦ (hapt.calls x hx).1,
            fun x hx ↦ (hapt.calls x hx).2.1, fun x hx ↦ (hapt.calls x hx).2.2, ?_⟩
          exact ((hapt.sub.trans he).map Expr.id).nodup hn
        refine (meets_invoke ha hs hnames hexpand hissuable hb).bind ?_
        rintro d₁ ⟨hb₁, hd₁, hdone⟩
        have hlt := Draft.unevaluated_lt hd₁.results (hapt.sub.subset List.mem_cons_self)
          (hapt.calls c List.mem_cons_self).2.1 (hdone c List.mem_cons_self)
        refine (ih he hb₁ (by omega)).mono ?_
        rintro d₂ ⟨hp₂, hb₂, hd₂⟩
        exact ⟨hp₂, hb₂, hd₁.trans hd₂⟩

theorem prepare_of_not_pending {e : Expr} (h : d.isPending e = false) :
    l.prepare expand e d = .ok d := by
  have hready : d.ready e = ⟨[], none⟩ := by
    cases e <;> rw [Draft.ready, h] <;> rfl
  rw [prepare, prepareUpTo, hready]

end Lowering

end Fabric
