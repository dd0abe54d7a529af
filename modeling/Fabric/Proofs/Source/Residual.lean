import Fabric.Proofs.Construction.Prepare
import Fabric.Proofs.Source.Logic
import Mathlib.Algebra.BigOperators.Group.Multiset.Basic

namespace Fabric

open scoped List

variable {V : Type} (I : Interpretation V) (tree : SyntaxTree) (w : World V)

namespace Expr

def active : Expr → List Expr
  | .binary id op lhs rhs =>
    if (Expr.binary id op lhs rhs).isGuarded && op.settles (lhs.truth I tree w) then [lhs]
    else [lhs, rhs]
  | .conditional id condition ifTrue ifFalse =>
    if (Expr.conditional id condition ifTrue ifFalse).isGuarded then
      [condition, if condition.truth I tree w then ifTrue else ifFalse]
    else [condition, ifTrue, ifFalse]
  | e => e.children

def own : Expr → Multiset (Started V)
  | .call _ target args => {tree.invoked I target (args.map (truth I tree w))}
  | _ => 0

end Expr

namespace Draft

mutual

def owed (d : Draft) (e : Expr) : Multiset (Started V) :=
  if d.isEvaluated e then 0
  else
    match e with
    | .literal _ _ | .getLocal _ _ | .getParameter _ _ | .getField _ _ => 0
    | .unary _ _ operand | .newArray _ _ operand | .arrayLength _ operand | .cast _ _ operand =>
      d.owed operand
    | .binary id op lhs rhs =>
      if (Expr.binary id op lhs rhs).isGuarded && op.settles (lhs.truth I tree w) then d.owed lhs
      else d.owed lhs + d.owed rhs
    | .call _ target args =>
      d.owedAll args + {tree.invoked I target (args.map (Expr.truth I tree w))}
    | .arrayElement _ array index => d.owed array + d.owed index
    | .conditional id condition ifTrue ifFalse =>
      if (Expr.conditional id condition ifTrue ifFalse).isGuarded then
        d.owed condition +
          if condition.truth I tree w then d.owed ifTrue else d.owed ifFalse
      else d.owed condition + (d.owed ifTrue + d.owed ifFalse)

def owedAll (d : Draft) : List Expr → Multiset (Started V)
  | [] => 0
  | e :: es => d.owed e + d.owedAll es

end

/-- A part of an expression that is due: it counts, and neither it nor anything around it is
evaluated. -/
inductive Due (d : Draft) (n : Expr) : Expr → Prop
  | here : d.isEvaluated n = false → Due d n n
  | under {e c : Expr} : d.isEvaluated e = false → c ∈ e.active I tree w → Due d n c → Due d n e

inductive Seen (d : Draft) (n : Expr) : Expr → Prop
  | here : Seen d n n
  | under {e c : Expr} : d.isEvaluated e = false → c ∈ e.children → Seen d n c → Seen d n e

end Draft

namespace Expr

variable {I tree w}

theorem active_sublist (e : Expr) : e.active I tree w <+ e.children := by
  cases e with
  | binary id op lhs rhs =>
    rw [active, children]
    split
    · exact List.singleton_sublist.2 List.mem_cons_self
    · exact List.Sublist.refl _
  | conditional id condition ifTrue ifFalse =>
    rw [active, children]
    split
    · split <;> simp
    · exact List.Sublist.refl _
  | _ => exact List.Sublist.refl _

theorem ids_nodup_child {e c : Expr} (h : e.ids.Nodup) (hc : c ∈ e.children) : c.ids.Nodup := by
  rw [ids_eq] at h
  exact (List.nodup_flatMap.1 (List.nodup_cons.1 h).2).1 c hc

theorem ids_subset_child {e c : Expr} (hc : c ∈ e.children) : c.ids ⊆ e.ids := by
  rw [e.ids_eq]
  exact fun x hx ↦ List.mem_cons_of_mem _ (List.mem_flatMap.2 ⟨c, hc, hx⟩)

theorem id_notMem_child {e c : Expr} (h : e.ids.Nodup) (hc : c ∈ e.children) : e.id ∉ c.ids := by
  rw [ids_eq] at h
  exact fun hmem ↦ (List.nodup_cons.1 h).1 (List.mem_flatMap.2 ⟨c, hc, hmem⟩)

theorem disjoint_children {e : Expr} (h : e.ids.Nodup) {before after : List Expr} {c a : Expr}
    (heq : before ++ c :: after <+ e.children) (ha : a ∈ before ++ after) :
    a.ids.Disjoint c.ids := by
  rw [ids_eq] at h
  have hpairs := (List.nodup_flatMap.1 (List.nodup_cons.1 h).2).2.sublist heq
  rw [List.pairwise_append] at hpairs
  obtain ⟨-, hafter, hbefore⟩ := hpairs
  rcases List.mem_append.1 ha with ha | ha
  · exact hbefore a ha c List.mem_cons_self
  · exact (List.rel_of_pairwise_cons hafter ha).symm

theorem disjoint_of_ne {e a c : Expr} (h : e.ids.Nodup) (ha : a ∈ e.children) (hc : c ∈ e.children)
    (hne : a ≠ c) : a.ids.Disjoint c.ids := by
  rw [ids_eq] at h
  have hsymm : Std.Symm (Function.onFun List.Disjoint Expr.ids) := ⟨fun _ _ h ↦ List.Disjoint.symm h⟩
  exact (List.nodup_flatMap.1 (List.nodup_cons.1 h).2).2.forall ha hc hne

theorem id_mem_ids (e : Expr) : e.id ∈ e.ids := by
  rw [ids_eq]
  exact List.mem_cons_self

end Expr

namespace Draft

variable {I tree w} {d d' : Draft} {e g n : Expr}

theorem owedAll_eq (d : Draft) (es : List Expr) :
    d.owedAll I tree w es = (es.map (d.owed I tree w)).sum := by
  induction es with
  | nil => rfl
  | cons e es ih => rw [owedAll, ih, List.map_cons, List.sum_cons]

/-- What is left of an expression that is not evaluated is what is left of the operands that count,
and its own invocation. -/
theorem owed_eq (d : Draft) (e : Expr) : d.owed I tree w e =
    if d.isEvaluated e then 0
    else ((e.active I tree w).map (d.owed I tree w)).sum + e.own I tree w := by
  rw [owed.eq_def]
  split
  · rfl
  · cases e with
    | binary id op lhs rhs =>
      unfold Expr.active Expr.own
      dsimp only
      split <;> simp
    | conditional id condition ifTrue ifFalse =>
      unfold Expr.active Expr.own
      dsimp only
      split
      · split <;> simp
      · simp
    | call id target args => simp [Expr.active, Expr.own, Expr.children, owedAll_eq]
    | _ => simp [Expr.active, Expr.own, Expr.children]

theorem isEvaluated_congr (h : d'.result? e.id = d.result? e.id) :
    d'.isEvaluated e = d.isEvaluated e := by
  rw [isEvaluated, h, isEvaluated]

theorem owed_congr (h : ∀ i ∈ e.ids, d'.result? i = d.result? i) :
    d'.owed I tree w e = d.owed I tree w e := by
  induction e using Expr.induction_children with
  | step e ih =>
    have hmap : (e.active I tree w).map (d'.owed I tree w) =
        (e.active I tree w).map (d.owed I tree w) := by
      refine List.map_congr_left fun c hc ↦ ?_
      have hchild := e.active_sublist.subset hc
      exact ih c hchild fun i hi ↦ h i (Expr.ids_subset_child hchild hi)
    rw [owed_eq, owed_eq, hmap, isEvaluated_congr (h e.id e.id_mem_ids)]

theorem owed_of_not_pending (h : d.isPending e = false) : d.owed I tree w e = 0 := by
  induction e using Expr.induction_children with
  | step e ih =>
    rw [owed_eq]
    split
    · rfl
    next hev =>
      obtain ⟨hcall, hchildren⟩ := isPending_child h (by simpa [isEvaluated] using hev)
      have hown : e.own I tree w = 0 := by
        cases e with
        | call => cases hcall
        | _ => rfl
      rw [hown, add_zero]
      refine List.sum_eq_zero fun s hs ↦ ?_
      obtain ⟨c, hc, rfl⟩ := List.mem_map.1 hs
      have hchild := e.active_sublist.subset hc
      exact ih c hchild (hchildren c hchild)

namespace Due

theorem isEvaluated (h : d.Due I tree w n e) : d.isEvaluated n = false := by
  induction h with
  | here h => exact h
  | under _ _ _ ih => exact ih

theorem ids_subset (h : d.Due I tree w n e) : n.ids ⊆ e.ids := by
  induction h with
  | here => exact List.Subset.refl _
  | under _ hc _ ih =>
    exact List.Subset.trans ih (Expr.ids_subset_child (Expr.active_sublist _ |>.subset hc))

theorem mem_nodes (h : d.Due I tree w n e) : n ∈ e.nodes := by
  induction h with
  | here => exact n.mem_nodes_self
  | under _ hc _ ih =>
    exact Expr.nodes_subset_of_mem_children (Expr.active_sublist _ |>.subset hc) ih

/-- A part is still due when another one that it is not in has got its result. -/
theorem outside {r : Expr} (hids : r.ids.Nodup) (hg : g ∈ r.nodes) (he : e ∈ r.nodes)
    (h : d.Due I tree w n e) (hn : n.id ∉ g.ids) (hr : ∀ i ∉ g.ids, d'.result? i = d.result? i) :
    d'.Due I tree w n e := by
  induction h with
  | here hev =>
    exact .here ((isEvaluated_congr (hr _ hn)).trans hev)
  | @under e c hev hc hdue ih =>
    have hchild := e.active_sublist.subset hc
    have hcr := Expr.nodes_subset he (Expr.nodes_subset_of_mem_children hchild c.mem_nodes_self)
    -- An expression around the part is not in the other one, or the part would be.
    have hout : e.id ∉ g.ids := by
      intro hmem
      obtain ⟨k, hk, hid⟩ := List.mem_map.1 hmem
      obtain rfl := List.inj_on_of_nodup_map hids (Expr.nodes_subset hg hk) he hid
      exact hn (List.mem_map_of_mem (Expr.nodes_subset hk
        (Expr.nodes_subset_of_mem_children hchild hdue.mem_nodes)))
    exact .under ((isEvaluated_congr (hr _ hout)).trans hev) hc (ih hcr)

/-- When a part that is due gets its result, what was left of it is no longer left. -/
theorem owed_eq (hids : e.ids.Nodup) (h : d.Due I tree w g e)
    (hr : ∀ i ∉ g.ids, d'.result? i = d.result? i) (hg : d'.isEvaluated g = true) :
    d.owed I tree w e = d.owed I tree w g + d'.owed I tree w e := by
  induction h with
  | here =>
    rw [Draft.owed_eq d' g, if_pos hg, add_zero]
  | @under e c hev hc hdue ih =>
    have hchild := e.active_sublist.subset hc
    have hev' : d'.isEvaluated e = false := by
      refine (isEvaluated_congr (hr _ fun hmem ↦ ?_)).trans hev
      exact Expr.id_notMem_child hids hchild (hdue.ids_subset hmem)
    obtain ⟨before, after, hactive⟩ := List.append_of_mem hc
    have hsub : before ++ c :: after <+ e.children := hactive ▸ e.active_sublist
    have hsame {a : Expr} (ha : a ∈ before ++ after) :
        d'.owed I tree w a = d.owed I tree w a := by
      refine owed_congr fun i hi ↦ hr i fun hmem ↦ ?_
      exact Expr.disjoint_children hids hsub ha hi (hdue.ids_subset hmem)
    have hbefore := List.map_congr_left fun a ha ↦ hsame (List.mem_append_left after ha)
    have hafter := List.map_congr_left fun a ha ↦ hsame (List.mem_append_right before ha)
    rw [Draft.owed_eq d e, Draft.owed_eq d' e, hev, hev', if_neg Bool.false_ne_true,
      if_neg Bool.false_ne_true, hactive, List.map_append, List.map_append, List.map_cons,
      List.map_cons, hbefore, hafter, ih (Expr.ids_nodup_child hids hchild)]
    simp only [List.sum_append, List.sum_cons]
    abel

end Due

namespace Seen

theorem mem_nodes (h : d.Seen n e) : n ∈ e.nodes := by
  induction h with
  | here => exact n.mem_nodes_self
  | under _ hc _ ih => exact Expr.nodes_subset_of_mem_children hc ih

theorem congr (h : d'.Seen n e) (hr : ∀ i ∈ e.ids, d'.result? i = d.result? i) : d.Seen n e := by
  induction h with
  | here => exact .here
  | @under e c hev hc _ ih =>
    exact .under ((isEvaluated_congr (hr _ e.id_mem_ids)).symm.trans hev) hc
      (ih fun i hi ↦ hr i (Expr.ids_subset_child hc hi))

theorem eq_or_outside (hids : e.ids.Nodup) (hg : g ∈ e.nodes) (h : d'.Seen n e)
    (hr : ∀ i ∉ g.ids, d'.result? i = d.result? i) (hev : d'.isEvaluated g = true) :
    n = g ∨ n.id ∉ g.ids ∧ d.Seen n e := by
  induction h with
  | here =>
    rw [Expr.nodes_eq] at hg
    rcases List.mem_cons.1 hg with rfl | hg
    · exact .inl rfl
    · obtain ⟨c, hc, hg⟩ := List.mem_flatMap.1 hg
      refine .inr ⟨fun hmem ↦ ?_, .here⟩
      exact Expr.id_notMem_child hids hc (List.map_subset _ (Expr.nodes_subset hg) hmem)
  | @under e c hopen hc hseen ih =>
    have hne : g ≠ e := by
      rintro rfl
      rw [hopen] at hev
      cases hev
    rw [Expr.nodes_eq] at hg
    obtain ⟨a, ha, hg⟩ := List.mem_flatMap.1 ((List.mem_cons.1 hg).resolve_left hne)
    have hga : g.ids ⊆ a.ids := List.map_subset _ (Expr.nodes_subset hg)
    have hout : d.isEvaluated e = false := by
      refine (isEvaluated_congr (hr _ fun hmem ↦ ?_)).symm.trans hopen
      exact Expr.id_notMem_child hids ha (hga hmem)
    rcases eq_or_ne c a with rfl | hca
    · refine (ih (Expr.ids_nodup_child hids hc) hg).imp_right ?_
      rintro ⟨hid, hseen⟩
      exact ⟨hid, .under hout hc hseen⟩
    · have hapart (i) (hi : i ∈ c.ids) : i ∉ g.ids := fun hmem ↦
        Expr.disjoint_of_ne hids hc ha hca hi (hga hmem)
      refine .inr ⟨hapart _ (List.mem_map_of_mem hseen.mem_nodes), .under hout hc ?_⟩
      exact hseen.congr fun i hi ↦ hr i (hapart i hi)

end Seen

/-- What is ready of an expression that is open: it is ready itself, or what is ready is that of
operands that count. -/
theorem ready_cases (I : Interpretation V) (tree : SyntaxTree) (w : World V)
    (hp : d.isPending e = true) : d.ready e = .call e ∨ d.ready e = .guard e ∨
      ∃ es, es <+ e.active I tree w ∧ d.ready e = d.readyList es := by
  have hnot : ¬(!d.isPending e) = true := by simp [hp]
  cases e with
  | literal | getLocal | getParameter | getField => simp [isPending] at hp
  | unary id op operand | newArray id type operand | arrayLength id operand
  | cast id type operand =>
    refine .inr (.inr ⟨[operand], List.Sublist.refl _, ?_⟩)
    rw [ready, if_neg hnot, readyList_singleton]
  | arrayElement id array index =>
    refine .inr (.inr ⟨[array, index], List.Sublist.refl _, ?_⟩)
    rw [ready, if_neg hnot, readyList_pair]
  | call id target args =>
    rw [ready, if_neg hnot]
    split
    · exact .inr (.inr ⟨args, List.Sublist.refl _, rfl⟩)
    · exact .inl rfl
  | binary id op lhs rhs =>
    rw [ready, if_neg hnot]
    unfold Expr.active
    dsimp only
    split
    next hg =>
      split
      · refine .inr (.inr ⟨[lhs], ?_, (readyList_singleton lhs).symm⟩)
        split <;> simp
      · exact .inr (.inl rfl)
    next hg =>
      refine .inr (.inr ⟨[lhs, rhs], ?_, (readyList_pair lhs rhs).symm⟩)
      simp [hg]
  | conditional id condition ifTrue ifFalse =>
    rw [ready, if_neg hnot]
    unfold Expr.active
    dsimp only
    split
    next hg =>
      split
      · exact .inr (.inr ⟨[condition], by simp, (readyList_singleton condition).symm⟩)
      · exact .inr (.inl rfl)
    next hg =>
      refine .inr (.inr ⟨[condition, ifTrue, ifFalse], List.Sublist.refl _, ?_⟩)
      rw [readyList, readyList_pair]

end Draft

structure Ready.Timely (d : Draft) (e : Expr) (r : Ready) : Prop where
  calls : ∀ c ∈ r.calls, d.Due I tree w c e
  apart : r.calls.Pairwise fun a b ↦ b.id ∉ a.ids
  guarded : ∀ g ∈ r.guarded, d.Due I tree w g e

namespace Draft

variable {I tree w} {d d' : Draft} {e g n : Expr}

theorem timely_readyList (hids : e.ids.Nodup) (hev : d.isEvaluated e = false) {es : List Expr}
    (hes : es <+ e.active I tree w) (h : ∀ c ∈ es, (d.ready c).Timely I tree w d c) :
    (d.readyList es).Timely I tree w d e := by
  induction es with
  | nil =>
    rw [readyList]
    refine ⟨List.forall_mem_nil _, List.Pairwise.nil, ?_⟩
    intro g hg
    cases hg
  | cons a es ih =>
    have hrest := ih ((List.sublist_cons_self a es).trans hes) fun c hc ↦
      h c (List.mem_cons_of_mem _ hc)
    have hfirst := h a List.mem_cons_self
    have hactive : a ∈ e.active I tree w := hes.subset List.mem_cons_self
    have hunder {c : Expr} (hc : d.Due I tree w c a) : d.Due I tree w c e := .under hev hactive hc
    rw [readyList]
    refine ⟨?_, ?_, ?_⟩
    · intro c hc
      rcases List.mem_append.1 hc with hc | hc
      · exact hunder (hfirst.calls c hc)
      · exact hrest.calls c hc
    · refine List.pairwise_append.2 ⟨hfirst.apart, hrest.apart, fun x hx y hy hmem ↦ ?_⟩
      obtain ⟨c, hc, hyc⟩ := List.mem_flatMap.1
        ((apt_readyList fun c _ ↦ d.apt_ready c).sub.subset hy)
      have hsub : [] ++ a :: es <+ e.children := hes.trans e.active_sublist
      exact Expr.disjoint_children hids hsub (by simpa using hc) (List.mem_map_of_mem hyc)
        ((hfirst.calls x hx).ids_subset hmem)
    · intro g hg
      unfold Ready.append at hg
      cases ha : (d.ready a).guarded with
      | some x =>
        rw [ha] at hg
        exact hunder (hfirst.guarded g (ha.trans hg))
      | none =>
        rw [ha] at hg
        exact hrest.guarded g hg

theorem timely_ready (hids : e.ids.Nodup) : (d.ready e).Timely I tree w d e := by
  induction e using Expr.induction_children with
  | step e ih =>
    cases hp : d.isPending e with
    | false =>
      have hnone : d.ready e = .none := by
        cases e <;> rw [ready, hp] <;> rfl
      rw [hnone]
      refine ⟨List.forall_mem_nil _, List.Pairwise.nil, ?_⟩
      intro g hg
      cases hg
    | true =>
      have hev := isEvaluated_of_isPending hp
      rcases ready_cases I tree w hp with hr | hr | ⟨es, hes, hr⟩
      · rw [hr]
        refine ⟨List.forall_mem_singleton.2 (.here hev), List.pairwise_singleton _ _, ?_⟩
        intro g hg
        cases hg
      · rw [hr]
        refine ⟨List.forall_mem_nil _, List.Pairwise.nil, ?_⟩
        intro g hg
        obtain rfl := Option.some.inj hg
        exact .here hev
      · rw [hr]
        refine timely_readyList hids hev hes fun c hc ↦ ?_
        have hchild := e.active_sublist.subset (hes.subset hc)
        exact ih c hchild (Expr.ids_nodup_child hids hchild)

theorem owed_call (hev : d.isEvaluated e = false)
    (hargs : ∀ a ∈ e.children, d.isPending a = false) : d.owed I tree w e = e.own I tree w := by
  rw [owed_eq, hev, if_neg Bool.false_ne_true]
  have hsum : ((e.active I tree w).map (d.owed I tree w)).sum = 0 := by
    refine List.sum_eq_zero fun s hs ↦ ?_
    obtain ⟨c, hc, rfl⟩ := List.mem_map.1 hs
    exact owed_of_not_pending (hargs c (e.active_sublist.subset hc))
  rw [hsum, zero_add]

theorem owedAll_perform {es : List Expr}
    (h : ∀ e ∈ es, d.owed I tree w e = (e.perform I tree w).2) :
    d.owedAll I tree w es = (Expr.performAll I tree w es).2 := by
  induction es with
  | nil =>
    rw [owedAll, Expr.performAll]
    rfl
  | cons e es ih =>
    obtain ⟨he, hes⟩ := List.forall_mem_cons.1 h
    rw [owedAll, Expr.performAll, he, ih hes, Multiset.coe_add]

theorem owed_fresh {l : Lowering} (he : e.IsLogic l) (h : ∀ i ∈ e.ids, d.result? i = none) :
    d.owed I l.program.tree w e = (e.perform I l.program.tree w).2 := by
  have hnone {e : Expr} (hc : e.containsCall = false) : d.owed I l.program.tree w e = 0 :=
    owed_of_not_pending (isPending_of_containsCall hc d)
  induction e using Expr.induction_children with
  | step e ih =>
    have hchild (c) (hc : c ∈ e.children) :=
      ih c hc (he.child hc) fun i hi ↦ h i (Expr.ids_subset_child hc hi)
    have hev : d.isEvaluated e = false := by rw [isEvaluated, h e.id e.id_mem_ids]; rfl
    have hadmits := he e e.mem_nodes_self
    rw [owed.eq_def, hev, if_neg Bool.false_ne_true]
    cases e with
    | literal id value =>
      cases value with
      | bool value => rfl
      | int => exact hadmits.elim
    | getParameter id name => rfl
    | unary id op operand =>
      rw [Expr.perform]
      exact hchild operand (by simp [Expr.children])
    | binary id op lhs rhs =>
      have hl := hchild lhs (by simp [Expr.children])
      have hr := hchild rhs (by simp [Expr.children])
      rw [Expr.perform]
      dsimp only
      rw [← Expr.truth]
      cases hsettles : op.settles (lhs.truth I l.program.tree w) with
      | false => simp [hl, hr]
      | true =>
        cases hg : (Expr.binary id op lhs rhs).isGuarded with
        | true => simp [hl]
        | false =>
          have hcalls : rhs.containsCall = false := by
            simpa [Expr.isGuarded, BinaryOp.isLogical_of_settles hsettles] using hg
          simp [hl, hnone hcalls]
    | conditional id condition ifTrue ifFalse =>
      have hc := hchild condition (by simp [Expr.children])
      have ht := hchild ifTrue (by simp [Expr.children])
      have hf := hchild ifFalse (by simp [Expr.children])
      rw [Expr.perform]
      dsimp only
      rw [← Expr.truth]
      cases hg : (Expr.conditional id condition ifTrue ifFalse).isGuarded with
      | true =>
        cases condition.truth I l.program.tree w <;> simp [hc, ht, hf]
      | false =>
        obtain ⟨htrue, hfalse⟩ : ifTrue.containsCall = false ∧ ifFalse.containsCall = false := by
          simpa [Expr.isGuarded] using hg
        have ht' := ht.symm.trans (hnone htrue)
        have hf' := hf.symm.trans (hnone hfalse)
        rw [hnone htrue, hnone hfalse, hc]
        cases condition.truth I l.program.tree w <;> simp_all
    | call id target args =>
      rw [Expr.perform]
      dsimp only
      have hargs : d.owedAll I l.program.tree w args = _ := owedAll_perform hchild
      rw [Expr.performAll_fst, ← Multiset.coe_add, hargs, Multiset.coe_singleton]
    | _ => exact hadmits.elim

end Draft

end Fabric
