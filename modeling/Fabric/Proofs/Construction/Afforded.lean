import Fabric.Proofs.Construction.Member
import Fabric.Proofs.Construction.Prepare

namespace Fabric

open Synthesis
open scoped List

namespace Stmt

def startsCalls (t : Stmt) : Bool :=
  t.ownNodes.any Expr.isCall

def ownGroups (t : Stmt) : List NodeId :=
  if t.startsCalls then [t.id] else []

def groups (s : Stmt) : List NodeId :=
  s.nodes.flatMap ownGroups

theorem groups_eq (s : Stmt) : s.groups = s.ownGroups ++ s.children.flatMap groups := by
  unfold groups
  rw [s.nodes_eq, List.flatMap_cons, List.flatMap_assoc]

theorem groups_sublist (s : Stmt) : s.groups <+ s.ids := by
  have hown (t : Stmt) : t.ownGroups <+ t.headIds := by
    unfold ownGroups
    split
    · exact (List.nil_sublist _).cons_cons _
    · exact List.nil_sublist _
  unfold groups ids
  induction s.nodes with
  | nil => exact List.Sublist.refl _
  | cons t nodes ih =>
    rw [List.flatMap_cons, List.flatMap_cons]
    exact (hown t).append ih

theorem groups_eq_nil {s : Stmt} (h : s.containsCall = false) : s.groups = [] := by
  unfold groups
  rw [List.flatMap_eq_nil_iff]
  intro t ht
  have hnot : t.startsCalls = false := by
    rw [containsCall, List.any_eq_false] at h
    rw [startsCalls, List.any_eq_false]
    intro c hc
    exact h c (List.mem_flatMap.2 ⟨t, ht, hc⟩)
  rw [ownGroups, hnot]
  rfl

end Stmt

namespace Draft

def Fresh (groups : List NodeId) (d : Draft) : Prop :=
  ∀ g ∈ groups, ∀ callee, d.nextSlot (g, callee) = 0

def Solvent (l : Lowering) (t : Stmt) (d : Draft) : Prop :=
  t.startsCalls → d.Balanced l t []

variable {groups groups' : List NodeId} {d d' : Draft} {l : Lowering} {t : Stmt}

theorem Fresh.after (h : d.Fresh groups') (hd : d.Spends groups d')
    (hdisjoint : groups.Disjoint groups') : d'.Fresh groups' := by
  intro g hg callee
  rw [hd.slots (g, callee) fun hmem ↦ hdisjoint hmem hg]
  exact h g hg callee

theorem Fresh.mono (h : d.Fresh groups) (hsub : groups' ⊆ groups) : d.Fresh groups' :=
  fun g hg ↦ h g (hsub hg)

theorem Fresh.solvent (h : d.Fresh t.ownGroups) : d.Solvent l t := by
  intro hstarts k _
  have hmem : t.id ∈ t.ownGroups := by
    rw [Stmt.ownGroups, if_pos hstarts]
    exact List.mem_cons_self
  rw [h t.id hmem]
  exact Nat.zero_le _

/-- The body of a loop is lowered one loop deeper. -/
theorem Spends.innerLoop {x exits : LoopExits} {loops : List LoopExits}
    (h : Spends groups { d with loops := x :: d.loops } d') (hl : d'.loops = exits :: loops) :
    Spends groups d { d' with loops := loops } where
  slots := h.slots
  results := h.results
  quiet := h.quiet
  depth := by
    have hdepth := h.depth
    rw [hl] at hdepth
    exact Nat.succ.inj hdepth

end Draft

namespace Lowering

structure Equipped (l : Lowering) (expand : Expansion) (t : Stmt) : Prop where
  affords : l.AffordsOwn t
  names : l.program.NamesDistinct
  distinct : t.headIds.Nodup
  expands : t.startsCalls → expand.Consistent l

variable {l : Lowering} {expand : Expansion} {t : Stmt} {d : Draft}

theorem Equipped.nodup (h : l.Equipped expand t) : (t.ownNodes.map Expr.id).Nodup := by
  have hids : t.ownNodes.map Expr.id = t.exprs.flatMap Expr.ids := by
    unfold Stmt.ownNodes Expr.ids
    rw [List.map_flatMap]
  rw [hids]
  exact (List.nodup_cons.1 h.distinct).2

theorem meets_prepare (h : l.Equipped expand t) (hs : t.isParallel = false) {e : Expr}
    (he : e ∈ t.exprs) (hb : d.Solvent l t) :
    (l.prepare expand e d).Meets fun d' ↦
      d'.isPending e = false ∧ d'.Solvent l t ∧ d.Spends t.ownGroups d' := by
  cases hcall : e.containsCall with
  | false =>
    have hpending := Draft.isPending_of_containsCall hcall d
    rw [prepare_of_not_pending hpending]
    exact meets_ok ⟨hpending, hb, .refl d⟩
  | true =>
    have hsub : e.nodes <+ t.ownNodes := ParentIndex.sublist_flatMap he
    have hstarts : t.startsCalls = true := by
      rw [Expr.containsCall, List.any_eq_true] at hcall
      obtain ⟨c, hc, hcall⟩ := hcall
      exact List.any_eq_true.2 ⟨c, hsub.subset hc, hcall⟩
    have hrounds : d.unevaluated e < e.nodes.length + 1 := Nat.lt_succ_of_le List.countP_le_length
    rw [Stmt.ownGroups, if_pos hstarts]
    refine (meets_prepareUpTo h.affords hs h.names (h.expands hstarts) h.nodup hsub (hb hstarts)
      hrounds).mono ?_
    rintro d' ⟨hpending, hb', hd'⟩
    exact ⟨hpending, fun _ ↦ hb', hd'⟩

/-- Preparing and lowering an expression of a statement. -/
theorem meets_evaluate (h : l.Equipped expand t) (hs : t.isParallel = false) {e : Expr}
    (he : e ∈ t.exprs) (hb : d.Solvent l t) :
    (do l.expr e (← l.prepare expand e d) : Synthesis (Lowered × Draft)).Meets
      fun x ↦ d.Spends t.ownGroups x.2 := by
  refine (meets_prepare h hs he hb).bind ?_
  rintro d₁ ⟨hpending, -, hd₁⟩
  refine (l.meets_expr hpending).mono ?_
  intro x hx
  exact hd₁.trans (hx.mono (List.nil_subset _))

theorem meets_value (h : l.Equipped expand t) (hs : t.isParallel = false) {e : Expr}
    (he : e ∈ t.exprs) (hb : d.Solvent l t) (type : HwType) :
    (l.value expand e type d).Meets fun x ↦ d.Spends t.ownGroups x.2 := by
  unfold value
  split
  · exact meets_ok (.refl d)
  · exact meets_evaluate h hs he hb

theorem meets_condition (h : l.Equipped expand t) (hs : t.isParallel = false) {e : Expr}
    (he : e ∈ t.exprs) (hb : d.Solvent l t) :
    (l.condition expand e d).Meets fun x ↦ d.Spends t.ownGroups x.2 := by
  have hcondition : l.condition expand e d = (do
      let x ← (do l.expr e (← l.prepare expand e d) : Synthesis (Lowered × Draft))
      return (x.1.coerce .boolean, x.2.reserve x.1.cost)) := by
    unfold condition
    rw [bind_assoc]
  rw [hcondition]
  refine (meets_evaluate h hs he hb).bind ?_
  intro x hx
  exact meets_ok (hx.trans (Draft.spends_reserve _ _))

theorem meets_declare {id : NodeId} {name : String} {type : TypeRef} {init : Option Expr}
    (h : l.Equipped expand (.declare id name type init))
    (hb : d.Solvent l (.declare id name type init)) :
    (l.declare expand name type init d).Meets
      (d.Spends (Stmt.declare id name type init).ownGroups ·) := by
  have htype : (l.localType d type name).Meets fun _ ↦ True := TypeRef.meets_hardware _ _ _ _
  refine htype.bind ?_
  intro hw _
  cases init with
  | none => exact meets_ok ((d.spends_declare _ _ _).trans (Draft.spends_bind _ _ _))
  | some e =>
    refine (meets_value h rfl (by simp [Stmt.exprs]) hb hw).bind ?_
    rintro ⟨v, d₁⟩ hd₁
    refine (v.meets_checkCoerce hw).bind fun _ _ ↦ ?_
    exact meets_ok (((hd₁.trans (d₁.spends_declare _ _ _)).trans (Draft.spends_bind _ _ _)).trans
      (Draft.spends_emit _ _ _))

theorem meets_assign {id : NodeId} {target : AssignTarget} {e : Expr}
    (h : l.Equipped expand (.assign id target e)) (hb : d.Solvent l (.assign id target e)) :
    (l.assign expand target e d).Meets (d.Spends (Stmt.assign id target e).ownGroups ·) := by
  cases target with
  | toLocal name | toParameter name =>
    refine (l.meets_lookup d name).bind ?_
    intro b _
    cases b with
    | «variable» x type =>
      refine (meets_value h rfl (by simp [Stmt.exprs]) hb type).bind ?_
      rintro ⟨v, d₁⟩ hd₁
      exact (v.meets_checkCoerce type).bind fun _ _ ↦ meets_ok (hd₁.trans (d₁.spends_emit _ _))
    | constant value type => exact l.meets_unsupported _
  | toField f => exact l.meets_unsupported _

theorem meets_store {id : NodeId} {array index value : Expr}
    (h : l.Equipped expand (.store id array index value))
    (hb : d.Solvent l (.store id array index value)) :
    (l.store expand array index value d).Meets
      (d.Spends (Stmt.store id array index value).ownGroups ·) := by
  have hname : (l.arrayName array).Meets fun _ ↦ True := by
    cases array with
    | getLocal | getParameter => exact meets_ok trivial
    | _ => exact l.meets_unsupported _
  refine hname.bind ?_
  intro name _
  refine (l.meets_lookup d name).bind ?_
  intro b _
  cases b with
  | «variable» x type =>
    cases type with
    | array element length =>
      refine (meets_prepare h rfl (e := index) (by simp [Stmt.exprs]) hb).bind ?_
      rintro d₁ ⟨hindex, hb₁, hd₁⟩
      refine (meets_prepare h rfl (e := value) (by simp [Stmt.exprs]) hb₁).bind ?_
      rintro d₂ ⟨hvalue, -, hd₂⟩
      refine (l.meets_expr (hd₂.isPending hindex)).bind ?_
      rintro ⟨i, d₃⟩ hd₃
      refine (l.meets_expr (hd₃.isPending hvalue)).bind ?_
      rintro ⟨v, d₄⟩ hd₄
      refine (l.meets_cost _ _ _).bind ?_
      intro cost _
      refine (v.meets_checkCoerce element).bind fun _ _ ↦ ?_
      exact meets_ok (((hd₁.trans hd₂).trans ((hd₃.trans hd₄).mono (List.nil_subset _))).trans
        (d₄.spends_emit _ _))
    | _ => exact l.meets_unsupported _
  | constant value type => exact l.meets_unsupported _

theorem spends_leave {groups : List NodeId} (d : Draft) : d.Spends groups d.leave :=
  .of_eq rfl rfl rfl

theorem meets_ret {id : NodeId} {value : Option Expr} (h : l.Equipped expand (.ret id value))
    (hb : d.Solvent l (.ret id value)) :
    (l.ret expand value d).Meets (d.Spends (Stmt.ret id value).ownGroups ·) := by
  unfold ret
  cases value with
  | none =>
    cases d.frame.returnType with
    | none => exact meets_ok (spends_leave d)
    | some type => exact l.meets_unsupported _
  | some e =>
    cases d.frame.returnType with
    | none =>
      refine (meets_prepare h rfl (e := e) (by simp [Stmt.exprs]) hb).bind ?_
      rintro d₁ ⟨-, -, hd₁⟩
      exact meets_ok (hd₁.trans (spends_leave d₁))
    | some type =>
      refine (meets_value h rfl (by simp [Stmt.exprs]) hb type).bind ?_
      rintro ⟨v, d₁⟩ hd₁
      refine (v.meets_checkCoerce type).bind fun _ _ ↦ ?_
      exact meets_ok ((hd₁.trans (d₁.spends_emit _ _)).trans (spends_leave _))

theorem meets_eval {id : NodeId} {e : Expr} (h : l.Equipped expand (.eval id e))
    (hb : d.Solvent l (.eval id e)) :
    (l.eval expand e d).Meets (d.Spends (Stmt.eval id e).ownGroups ·) := by
  refine (meets_prepare h rfl (e := e) (by simp [Stmt.exprs]) hb).bind ?_
  rintro d₁ ⟨hpending, -, hd₁⟩
  dsimp only
  split
  · exact meets_ok hd₁
  · refine (l.meets_expr hpending).bind ?_
    rintro ⟨v, d₂⟩ hd₂
    exact meets_ok (hd₁.trans (hd₂.mono (List.nil_subset _)))

theorem meets_exitLoop (construct : String) (record : LoopExits → Nat → LoopExits)
    {groups : List NodeId} (d : Draft) :
    (l.exitLoop construct record d).Meets (d.Spends groups ·) := by
  unfold exitLoop
  cases hl : d.loops with
  | nil => exact l.meets_unsupported _
  | cons exits rest => exact meets_ok (.of_eq rfl rfl (by rw [hl]; rfl))

/-- The copies of a call take as many slots as there are copies. -/
theorem meets_copies {h : MemberHandle} {group : NodeId} {args : List Expr} {index : String}
    {count : Nat} (first : Nat) (hargs : ∀ a ∈ args, a.containsCall = false)
    (hslots : (d.nextSlot (group, l.program.tree.memberFullName h)).toNat + count ≤
      (l.slotsFor h).toNat) :
    (l.copies h group args index first count d).Meets fun x ↦ d.Spends [group] x.2 := by
  induction count generalizing first d with
  | zero => exact meets_ok (.refl d)
  | succ count ih =>
    unfold copies
    dsimp only
    let b : Binding := .constant (.int (Int64.ofNat first) (.signed 32)) (.signed 32)
    have hlt : (d.bind index b).nextSlot (group, l.program.tree.memberFullName h) <
        l.slotsFor h := by
      rw [UInt32.lt_iff_toNat_lt]
      have hsame : (d.bind index b).nextSlot (group, l.program.tree.memberFullName h) =
        d.nextSlot (group, l.program.tree.memberFullName h) := rfl
      rw [hsame]
      omega
    refine (meets_invocation hlt fun a ha ↦
      Draft.isPending_of_containsCall (hargs a ha) _).bind ?_
    rintro ⟨call, d₁⟩ htake
    refine (ih _ ?_).bind ?_
    · have hbound := (l.slotsFor h).toNat_lt
      have hsame : (d.bind index b).nextSlot (group, l.program.tree.memberFullName h) =
        d.nextSlot (group, l.program.tree.memberFullName h) := rfl
      rw [htake.next, hsame, UInt32.toNat_add]
      simp only [UInt32.reduceToNat]
      omega
    · rintro ⟨calls, d₂⟩ hd₂
      exact meets_ok (((d.spends_bind index b).trans htake.spends).trans hd₂)

theorem meets_resultArray (h : MemberHandle) (results : String) (count : UInt32) (d : Draft) :
    (l.resultArray h results count d).Meets fun x ↦ d.Spends [] x.2 := by
  unfold resultArray
  cases d.binding? results with
  | none =>
    refine (l.meets_resultType h).bind ?_
    intro type _
    refine (l.meets_require _ _).bind ?_
    intro element _
    exact meets_ok ((d.spends_declare _ _ _).trans (Draft.spends_bind _ _ _))
  | some b =>
    cases b with
    | constant value type => exact l.meets_unsupported _
    | «variable» name type =>
      cases type with
      | array element length => exact meets_ok (.refl d)
      | _ => exact l.meets_unsupported _

theorem spends_storeResults (array : String) (element : HwType) (values : List (Option Lowered))
    (d : Draft) : d.Spends [] (storeResults array element values d) :=
  storeResults_induction (motive := d.Spends []) (.refl d) fun d' _ _ _ hd ↦
    hd.trans (d'.spends_push _)

theorem meets_parallel {id : NodeId} {count : Expr} {index : String} {call : Expr}
    {results : Option String} (ha : l.AffordsOwn (.parallel id count index call results))
    (hfresh : d.Fresh (Stmt.parallel id count index call results).ownGroups) :
    (l.parallel id count index call results d).Meets
      (d.Spends (Stmt.parallel id count index call results).ownGroups ·) := by
  obtain ⟨copies, callId, target, args, hcount, rfl, hargs, hcallee⟩ :=
    ha.copies id count index call results rfl
  have hstarts : (Stmt.parallel id count index (.call callId target args) results).startsCalls := by
    refine List.any_eq_true.2 ⟨.call callId target args, ?_, rfl⟩
    exact List.mem_flatMap.2 ⟨_, by simp [Stmt.exprs], Expr.mem_nodes_self _⟩
  rw [Stmt.ownGroups, if_pos hstarts] at hfresh ⊢
  unfold parallel
  rw [hcount]
  refine (l.meets_require _ _).bind ?_
  rintro n hn
  obtain rfl := Option.some.inj hn
  refine (meets_callee rfl).bind ?_
  rintro ⟨h, _⟩ ⟨-, hcalls, rfl⟩
  obtain ⟨hin, hslots⟩ := hcallee h (of_decide_eq_true hcalls)
  dsimp only [Expr.children]
  rw [if_neg (by simp [hin])]
  have hzero : d.nextSlot (id, l.program.tree.memberFullName h) = 0 :=
    hfresh id List.mem_cons_self _
  refine (meets_copies 0 hargs ?_).bind ?_
  · rw [hzero]
    simpa using UInt32.le_iff_toNat_le.1 hslots
  · rintro ⟨batch, d₁⟩ hd₁
    have hlocals : d₁.Spends [id] (d₁.withLocals d.frame.locals) := .of_eq rfl rfl rfl
    have hshake := (hd₁.trans hlocals).trans (Draft.spends_handshake _ batch)
    cases results with
    | none => exact meets_ok hshake
    | some name =>
      refine (meets_resultArray h name copies _).bind ?_
      rintro ⟨⟨array, element⟩, d₂⟩ hd₂
      have hstore (values : List (Option Lowered)) :=
        hd₂.trans (spends_storeResults array element values d₂)
      exact meets_ok (hshake.trans ((hstore _).mono (List.nil_subset _)))

def Lowers (l : Lowering) (expand : Expansion) (s : Stmt) : Prop :=
  ∀ d : Draft, d.Fresh s.groups → (l.stmt expand s d).Meets (d.Spends s.groups ·)

theorem meets_stmtOption {o : Option Stmt} (h : ∀ s ∈ o, l.Lowers expand s)
    (hfresh : d.Fresh (o.toList.flatMap Stmt.groups)) :
    (l.stmtOption expand o d).Meets (d.Spends (o.toList.flatMap Stmt.groups) ·) := by
  cases o with
  | none =>
    rw [stmtOption]
    exact meets_ok (.refl d)
  | some s =>
    rw [Option.toList_some, List.flatMap_singleton] at hfresh ⊢
    rw [stmtOption]
    exact h s rfl d hfresh

theorem meets_stmtList {ss : List Stmt} (h : ∀ s ∈ ss, l.Lowers expand s)
    (hn : (ss.flatMap Stmt.groups).Nodup) (hfresh : d.Fresh (ss.flatMap Stmt.groups)) :
    (l.stmtList expand ss d).Meets (d.Spends (ss.flatMap Stmt.groups) ·) := by
  induction ss generalizing d with
  | nil =>
    rw [stmtList]
    exact meets_ok (.refl d)
  | cons s ss ih =>
    obtain ⟨hs, hss⟩ := List.forall_mem_cons.1 h
    rw [List.flatMap_cons] at hn hfresh ⊢
    obtain ⟨-, hn, hdisjoint⟩ := List.nodup_append'.1 hn
    rw [stmtList]
    refine (hs d (hfresh.mono (List.subset_append_left _ _))).bind ?_
    intro d₁ hd₁
    have hfresh₁ := (hfresh.mono (List.subset_append_right _ _)).after hd₁ hdisjoint
    refine (ih hss hn hfresh₁).mono ?_
    intro d₂ hd₂
    exact hd₁.append hd₂

theorem spends_fork (d : Draft) (label : String) (groups : List NodeId) :
    d.Spends groups ((d.addState label).enter d.nextState) :=
  .of_eq rfl rfl rfl

theorem meets_elseStmt {o : Option Stmt} (h : ∀ s ∈ o, l.Lowers expand s)
    (hfresh : d.Fresh (o.toList.flatMap Stmt.groups)) :
    (l.elseStmt expand o d).Meets fun x ↦ d.Spends (o.toList.flatMap Stmt.groups) x.2.2 := by
  cases o with
  | none =>
    rw [elseStmt]
    exact meets_ok (.refl d)
  | some s =>
    rw [Option.toList_some, List.flatMap_singleton] at hfresh ⊢
    rw [elseStmt]
    have hfork := spends_fork d "if: else" []
    refine (h s rfl _ (hfresh.after hfork (List.disjoint_nil_left _))).bind ?_
    intro d₁ hd₁
    exact meets_ok ((hfork.mono (List.nil_subset _)).trans hd₁)

theorem meets_stepStmt {o : Option Stmt} (h : ∀ s ∈ o, l.Lowers expand s) (head : Nat)
    (hfresh : d.Fresh (o.toList.flatMap Stmt.groups)) :
    (l.stepStmt expand o head d).Meets fun x ↦ d.Spends (o.toList.flatMap Stmt.groups) x.2 := by
  cases o with
  | none =>
    rw [stepStmt]
    exact meets_ok (.refl d)
  | some s =>
    rw [Option.toList_some, List.flatMap_singleton] at hfresh ⊢
    rw [stepStmt]
    have hfork := spends_fork d "loop: step" []
    refine (h s rfl _ (hfresh.after hfork (List.disjoint_nil_left _))).bind ?_
    intro d₁ hd₁
    exact meets_ok (((hfork.mono (List.nil_subset _)).trans hd₁).trans
      (.of_sameScope (Draft.sameScope_linkAll _ _ _)))

theorem meets_branch {id : NodeId} {condition : Expr} {thenBranch : Stmt} {elseBranch : Option Stmt}
    (h : l.Equipped expand (.branch id condition thenBranch elseBranch))
    (hthen : l.Lowers expand thenBranch) (helse : ∀ s ∈ elseBranch, l.Lowers expand s)
    (hn : (Stmt.branch id condition thenBranch elseBranch).groups.Nodup)
    (hfresh : d.Fresh (Stmt.branch id condition thenBranch elseBranch).groups)
    (ho : d.isClosed = false) :
    (l.stmt expand (.branch id condition thenBranch elseBranch) d).Meets
      (d.Spends (Stmt.branch id condition thenBranch elseBranch).groups ·) := by
  rw [Stmt.groups_eq, Stmt.children, List.flatMap_cons] at hn hfresh ⊢
  obtain ⟨-, hn, hown⟩ := List.nodup_append'.1 hn
  obtain ⟨hownThen, hownElse⟩ := List.disjoint_append_right.1 hown
  obtain ⟨-, -, hbranches⟩ := List.nodup_append'.1 hn
  have hfreshOwn := hfresh.mono (List.subset_append_left _ _)
  have hfreshRest := hfresh.mono (List.subset_append_right _ _)
  rw [stmt, ho, if_neg Bool.false_ne_true]
  refine (meets_condition h rfl (by simp [Stmt.exprs]) hfreshOwn.solvent).bind ?_
  rintro ⟨c, d₁⟩ hd₁
  have hfork := spends_fork d₁ "if: then" []
  have hd₁ := hd₁.trans (hfork.mono (List.nil_subset _))
  have hfreshThen := (hfreshRest.mono (List.subset_append_left _ _)).after hd₁ hownThen
  refine (hthen _ hfreshThen).bind ?_
  intro d₂ hd₂
  have hfreshElse := ((hfreshRest.mono (List.subset_append_right _ _)).after hd₁ hownElse).after
    hd₂ hbranches
  refine (meets_elseStmt helse hfreshElse).bind ?_
  rintro ⟨elseState, elseExit, d₃⟩ hd₃
  have hjoin (x : Transition DraftTarget) (exits : List Nat) :
      d₃.Spends [] (d₃.join "if: join" d₁.current x exits) :=
    .of_sameScope (d₃.sameScope_join _ _ _ _)
  have hclose {d : Draft} (closed : Bool) : d.Spends [] { d with isClosed := closed } :=
    .of_eq rfl rfl rfl
  have hall := hd₁.append (hd₂.append hd₃)
  exact meets_ok (hall.trans (((hjoin _ _).trans (hclose _)).mono (List.nil_subset _)))

theorem meets_loopBody {step : Option Stmt} {body : Stmt} (hbody : l.Lowers expand body)
    (hstep : ∀ s ∈ step, l.Lowers expand s)
    (hdisjoint : body.groups.Disjoint (step.toList.flatMap Stmt.groups))
    (hfresh : d.Fresh (body.groups ++ step.toList.flatMap Stmt.groups)) (c : Option HwExpr)
    (head : Nat) :
    (do
      let d₂ ← l.stmt expand body { (d.addState "loop: body").enter d.nextState with
        loops := ⟨[], []⟩ :: d.loops }
      match d₂.loops with
      | [] => .error (.inconsistent "loop exits missing")
      | exits :: loops =>
        let (again, d₃) ← l.stepStmt expand step head { d₂ with loops := loops }
        return (d₃.linkAll (d₂.exit?.toList ++ exits.continues) again).join "loop: exit"
          d.current (loopTransition c d.nextState
            (d₃.linkAll (d₂.exit?.toList ++ exits.continues) again).nextState) exits.breaks :
      Synthesis Draft).Meets
      (d.Spends (body.groups ++ step.toList.flatMap Stmt.groups) ·) := by
  have hfork := spends_fork d "loop: body" []
  let start : Draft := { (d.addState "loop: body").enter d.nextState with
    loops := ⟨[], []⟩ :: d.loops }
  have hstart : start.Fresh body.groups := hfresh.mono (List.subset_append_left _ _)
  refine (hbody start hstart).bind ?_
  intro d₂ hd₂
  cases hl : d₂.loops with
  | nil =>
    -- The body leaves as many loops open as it finds.
    have hdepth := hd₂.depth
    rw [hl] at hdepth
    cases hdepth
  | cons exits loops =>
    have hd₂ := (hfork.mono (List.nil_subset body.groups)).trans
      (Draft.Spends.innerLoop (d := (d.addState "loop: body").enter d.nextState) hd₂ hl)
    have hfreshStep := (hfresh.mono (List.subset_append_right _ _)).after hd₂ hdisjoint
    refine (meets_stepStmt hstep head hfreshStep).bind ?_
    rintro ⟨again, d₃⟩ hd₃
    have hlink : d₃.Spends [] (d₃.linkAll (d₂.exit?.toList ++ exits.continues) again) :=
      .of_sameScope (Draft.sameScope_linkAll _ _ _)
    exact meets_ok ((hd₂.append hd₃).trans ((hlink.trans
      (.of_sameScope (Draft.sameScope_join _ _ _ _ _))).mono (List.nil_subset _)))

theorem meets_forLoop {id : NodeId} {init step : Option Stmt} {condition : Option Expr}
    {body : Stmt} (h : l.Equipped expand (.forLoop id init condition step body))
    (hinit : ∀ s ∈ init, l.Lowers expand s) (hbody : l.Lowers expand body)
    (hstep : ∀ s ∈ step, l.Lowers expand s)
    (hn : (Stmt.forLoop id init condition step body).groups.Nodup)
    (hfresh : d.Fresh (Stmt.forLoop id init condition step body).groups)
    (ho : d.isClosed = false) :
    (l.stmt expand (.forLoop id init condition step body) d).Meets
      (d.Spends (Stmt.forLoop id init condition step body).groups ·) := by
  let t : Stmt := .forLoop id init condition step body
  have hgroups : t.groups = t.ownGroups ++ (init.toList.flatMap Stmt.groups ++
      (body.groups ++ step.toList.flatMap Stmt.groups)) := by
    rw [Stmt.groups_eq, Stmt.children, List.flatMap_append, List.flatMap_cons]
  rw [hgroups] at hn hfresh ⊢
  obtain ⟨-, hn, hown⟩ := List.nodup_append'.1 hn
  obtain ⟨hownInit, hownRest⟩ := List.disjoint_append_right.1 hown
  obtain ⟨-, hn, hinitRest⟩ := List.nodup_append'.1 hn
  obtain ⟨-, -, hbodyStep⟩ := List.nodup_append'.1 hn
  have hfreshInner := hfresh.mono (List.subset_append_right _ _)
  rw [stmt, ho, if_neg Bool.false_ne_true]
  refine (meets_stmtOption hinit (hfreshInner.mono (List.subset_append_left _ _))).bind ?_
  intro d₀ hd₀
  have hsub : init.toList.flatMap Stmt.groups ⊆ t.ownGroups ++ (init.toList.flatMap Stmt.groups ++
      (body.groups ++ step.toList.flatMap Stmt.groups)) :=
    List.Subset.trans (List.subset_append_left _ _) (List.subset_append_right _ _)
  dsimp only
  split
  · exact meets_ok (hd₀.mono hsub)
  have hhead : d₀.Spends [] (d₀.openState "loop: head") := .of_sameScope (d₀.sameScope_openState _)
  have hfreshOwn : (d₀.openState "loop: head").Fresh t.ownGroups :=
    ((hfresh.mono (List.subset_append_left _ _)).after hd₀ hownInit.symm).after hhead
      (List.disjoint_nil_left _)
  have hfreshRest : (d₀.openState "loop: head").Fresh
      (body.groups ++ step.toList.flatMap Stmt.groups) :=
    ((hfreshInner.mono (List.subset_append_right _ _)).after hd₀ hinitRest).after hhead
      (List.disjoint_nil_left _)
  have hrest {d₁ d₂ : Draft} (hd₁ : (d₀.openState "loop: head").Spends t.ownGroups d₁)
      (hd₂ : d₁.Spends (body.groups ++ step.toList.flatMap Stmt.groups) d₂) :
      d.Spends (t.ownGroups ++ (init.toList.flatMap Stmt.groups ++
        (body.groups ++ step.toList.flatMap Stmt.groups))) d₂ := by
    have hd₁ := (hhead.mono (List.nil_subset _)).trans hd₁
    refine (hd₀.append (hd₁.append hd₂)).mono ?_
    intro g hg
    simp only [List.mem_append] at hg ⊢
    exact or_left_comm.1 hg
  cases condition with
  | none =>
    exact (meets_loopBody hbody hstep hbodyStep hfreshRest none _).mono
      fun d₂ hd₂ ↦ hrest (.refl _) hd₂
  | some e =>
    refine (meets_condition h rfl (e := e) ?_ hfreshOwn.solvent).bind ?_
    · simp [Stmt.exprs]
    · rintro ⟨c, d₁⟩ hd₁
      have hfresh₁ := hfreshRest.after hd₁ hownRest
      exact (meets_loopBody hbody hstep hbodyStep hfresh₁ (some c) _).mono
        fun d₂ hd₂ ↦ hrest hd₁ hd₂

def EquippedAll (l : Lowering) (expand : Expansion) (s : Stmt) : Prop :=
  ∀ t ∈ s.nodes, l.Equipped expand t

theorem EquippedAll.child {s c : Stmt} (h : l.EquippedAll expand s) (hc : c ∈ s.children) :
    l.EquippedAll expand c :=
  fun t ht ↦ h t (Stmt.nodes_subset_of_mem_children hc ht)

theorem nodup_groups_child {s c : Stmt} (h : s.groups.Nodup) (hc : c ∈ s.children) :
    c.groups.Nodup := by
  rw [s.groups_eq] at h
  exact (((ParentIndex.sublist_flatMap hc).trans (List.sublist_append_right _ _)).nodup h)

/-- Lowering a statement runs into no defect. -/
theorem lowers_stmt {s : Stmt} (h : l.EquippedAll expand s) (hn : s.groups.Nodup) :
    l.Lowers expand s := by
  -- Statements in a closed draft are left out.
  have hclosed {s : Stmt} {d : Draft} (ho : d.isClosed = false →
      (l.stmt expand s d).Meets (d.Spends s.groups ·)) :
      (l.stmt expand s d).Meets (d.Spends s.groups ·) := by
    cases hc : d.isClosed with
    | false => exact ho hc
    | true =>
      rw [stmt.eq_def, hc, if_pos rfl]
      exact meets_ok (.refl d)
  -- A statement without statements in it has only its own group.
  have hleaf {s : Stmt} (hs : s.children = []) : s.groups = s.ownGroups := by
    rw [s.groups_eq, hs, List.flatMap_nil, List.append_nil]
  induction s using Stmt.induction with
  | declare id name type init =>
    intro d hfresh
    refine hclosed fun ho ↦ ?_
    rw [hleaf rfl] at hfresh ⊢
    rw [stmt, ho, if_neg Bool.false_ne_true]
    exact meets_declare (h _ (Stmt.mem_nodes_self _)) hfresh.solvent
  | assign id target value =>
    intro d hfresh
    refine hclosed fun ho ↦ ?_
    rw [hleaf rfl] at hfresh ⊢
    rw [stmt, ho, if_neg Bool.false_ne_true]
    exact meets_assign (h _ (Stmt.mem_nodes_self _)) hfresh.solvent
  | store id array index value =>
    intro d hfresh
    refine hclosed fun ho ↦ ?_
    rw [hleaf rfl] at hfresh ⊢
    rw [stmt, ho, if_neg Bool.false_ne_true]
    exact meets_store (h _ (Stmt.mem_nodes_self _)) hfresh.solvent
  | branch id condition thenBranch elseBranch iht ihe =>
    intro d hfresh
    refine hclosed fun ho ↦ meets_branch (h _ (Stmt.mem_nodes_self _)) ?_ ?_ hn hfresh ho
    · have hmem : thenBranch ∈ (Stmt.branch id condition thenBranch elseBranch).children :=
        List.mem_cons_self
      exact iht (h.child hmem) (nodup_groups_child hn hmem)
    · intro s hs
      have hmem : s ∈ (Stmt.branch id condition thenBranch elseBranch).children :=
        List.mem_cons_of_mem _ (Option.mem_toList.2 hs)
      exact ihe s hs (h.child hmem) (nodup_groups_child hn hmem)
  | whileLoop id condition body ih =>
    intro d hfresh
    refine hclosed fun ho ↦ ?_
    have hbody := ih (h.child List.mem_cons_self) (nodup_groups_child hn List.mem_cons_self)
    have hnone : ∀ s ∈ (none : Option Stmt), l.Lowers expand s := by
      intro s hs
      cases hs
    -- A `while` loop has the account of the `for` loop with its condition.
    have hsame : (Stmt.forLoop id none (some condition) none body).groups =
        (Stmt.whileLoop id condition body).groups := by
      rw [Stmt.groups_eq, (Stmt.whileLoop id condition body).groups_eq]
      rfl
    obtain ⟨haffords, hnames, hdistinct, hexpands⟩ := h _ (Stmt.mem_nodes_self _)
    have hequipped : l.Equipped expand (.forLoop id none (some condition) none body) := by
      refine ⟨⟨haffords.grouped, haffords.calls, ?_⟩, hnames, hdistinct, hexpands⟩
      intro _ _ _ _ _ heq
      cases heq
    rw [← hsame] at hn hfresh ⊢
    rw [stmt_whileLoop]
    exact meets_forLoop hequipped hnone hbody hnone hn hfresh ho
  | forLoop id init condition step body ihi ihs ihb =>
    intro d hfresh
    refine hclosed fun ho ↦
      meets_forLoop (h _ (Stmt.mem_nodes_self _)) ?_ ?_ ?_ hn hfresh ho
    · intro s hs
      have hmem : s ∈ (Stmt.forLoop id init condition step body).children :=
        List.mem_append_left _ (Option.mem_toList.2 hs)
      exact ihi s hs (h.child hmem) (nodup_groups_child hn hmem)
    · have hmem : body ∈ (Stmt.forLoop id init condition step body).children :=
        List.mem_append_right _ List.mem_cons_self
      exact ihb (h.child hmem) (nodup_groups_child hn hmem)
    · intro s hs
      have hmem : s ∈ (Stmt.forLoop id init condition step body).children :=
        List.mem_append_right _ (List.mem_cons_of_mem _ (Option.mem_toList.2 hs))
      exact ihs s hs (h.child hmem) (nodup_groups_child hn hmem)
  | ret id value =>
    intro d hfresh
    refine hclosed fun ho ↦ ?_
    rw [hleaf rfl] at hfresh ⊢
    rw [stmt, ho, if_neg Bool.false_ne_true]
    exact meets_ret (h _ (Stmt.mem_nodes_self _)) hfresh.solvent
  | eval id e =>
    intro d hfresh
    refine hclosed fun ho ↦ ?_
    rw [hleaf rfl] at hfresh ⊢
    rw [stmt, ho, if_neg Bool.false_ne_true]
    exact meets_eval (h _ (Stmt.mem_nodes_self _)) hfresh.solvent
  | block id stmts ih =>
    intro d hfresh
    refine hclosed fun ho ↦ ?_
    have hgroups : (Stmt.block id stmts).groups = stmts.flatMap Stmt.groups := Stmt.groups_eq _
    have hnodup := hn
    rw [hgroups] at hnodup hfresh ⊢
    rw [stmt, ho, if_neg Bool.false_ne_true]
    refine meets_stmtList (fun s hs ↦ ?_) hnodup hfresh
    exact ih s hs (h.child hs) (nodup_groups_child hn hs)
  | breakLoop id | continueLoop id =>
    intro d hfresh
    refine hclosed fun ho ↦ ?_
    rw [stmt, ho, if_neg Bool.false_ne_true]
    exact meets_exitLoop _ _ d
  | parallel id count index call results =>
    intro d hfresh
    refine hclosed fun ho ↦ ?_
    rw [hleaf rfl] at hfresh ⊢
    rw [stmt, ho, if_neg Bool.false_ne_true]
    exact meets_parallel (h _ (Stmt.mem_nodes_self _)).affords hfresh

theorem meets_expand {body : Stmt → Draft → Synthesis Draft}
    (hbody : ∀ h, l.plan.isInlined h → ∀ s, (l.program.tree.method h).body = some s →
      ∀ d, (body s d).Meets (d.Spends [] ·)) : Expansion.Consistent l (l.expand body) := by
  intro h args d hin hargs
  unfold expand
  dsimp only
  refine (l.meets_require _ _).bind ?_
  intro code hcode
  refine (l.meets_arguments h hargs).bind ?_
  rintro ⟨arguments, d₁⟩ hd₁
  refine (l.meets_resultType h).bind ?_
  intro returnType _
  have hvalue : ∀ (v : Option (String × HwType)) (d₂ : Draft), d₁.Spends [] d₂ →
      (do
        let outer := d₂.frame
        let d₃ := d₂.enterCall (l.program.tree.memberFullName h)
          (String.ofList (simpleName (l.program.tree.method h).name.toList)) returnType
          (v.map Prod.fst)
        let d₄ ← body code (d₃.bindArguments (l.program.tree.memberFullName h) arguments)
        return (v.map fun (name, type) ↦ .ofVariable name type,
          d₄.leaveCall (l.program.tree.memberFullName h) outer) :
        Synthesis (Option Lowered × Draft)).Meets fun x ↦ d.Spends [] x.2 := by
    intro v d₂ hd₂
    have henter : d₂.Spends [] (d₂.enterCall (l.program.tree.memberFullName h)
      (String.ofList (simpleName (l.program.tree.method h).name.toList)) returnType
      (v.map Prod.fst)) := .of_eq rfl rfl rfl
    refine (hbody h hin code hcode _).bind ?_
    intro d₄ hd₄
    exact meets_ok (((((hd₁.trans hd₂).trans henter).trans
      (Draft.spends_bindArguments _ _ _)).trans hd₄).trans (Draft.spends_leaveCall _ _ _))
  refine (meets_checkArguments arguments).bind fun _ _ ↦ ?_
  cases returnType with
  | none => exact hvalue none d₁ (.refl d₁)
  | some type => exact hvalue (some (_, type)) _ (d₁.spends_temporary _ _)

theorem spends_begin (d : Draft) (parameters : List ComponentPin) :
    d.Spends [] (d.begin parameters) := by
  have htake (d : Draft) (q : ComponentPin) : d.Spends [] (d.takeParameter q) :=
    ((d.spends_declare _ _ _).trans (Draft.spends_bind _ _ _)).trans (Draft.spends_push _ _)
  have hfold (d : Draft) : d.Spends [] (parameters.foldl Draft.takeParameter d) := by
    induction parameters generalizing d with
    | nil => exact .refl d
    | cons q rest ih => exact (htake d q).trans (ih _)
  have hstart : d.Spends [] (d.begin []) := .of_eq rfl rfl rfl
  rw [Draft.begin_eq]
  exact hstart.trans (hfold _)

variable {g : CallGraph} {entries : List MemberHandle}

theorem consistent_expandBody (hg : g.Spans l.program entries) (hplan : l.plan.Follows l.program g)
    (hids : l.program.tree.ids.Nodup) (hnames : l.program.NamesDistinct) :
    Expansion.Consistent l (l.expand (l.stmt noExpansion)) := by
  refine meets_expand fun h hin s hs d ↦ ?_
  obtain ⟨haffords, hcalls⟩ := affords_expanded hg hplan hids hin hs
  have hmem : h ∈ g.members := (hplan.inlined h (by simpa [CallPlan.isInlined] using hin)).1
  have hsids := (SyntaxTree.ids_sublist (hg.members hmem) hs).nodup hids
  have hgroups := Stmt.groups_eq_nil hcalls
  have hequipped : l.EquippedAll noExpansion s := by
    intro t ht
    refine ⟨haffords t ht, hnames, (Stmt.headIds_sublist ht).nodup hsids, fun hstarts ↦ ?_⟩
    have hnil := List.flatMap_eq_nil_iff.1 hgroups t ht
    rw [Stmt.ownGroups, if_pos hstarts] at hnil
    cases hnil
  have hlowers := lowers_stmt hequipped (hgroups ▸ List.nodup_nil) d
  rw [hgroups] at hlowers
  exact hlowers (List.forall_mem_nil _)

/-- The body of a planned member can be lowered, and its groups are different. -/
theorem equippedAll_body (hg : g.Spans l.program entries) (hplan : l.plan.Follows l.program g)
    (hm : l.member ∈ l.plan.components) (hids : l.program.tree.ids.Nodup)
    (hnames : l.program.NamesDistinct) {code : Stmt}
    (hcode : (l.program.tree.method l.member.handle).body = some code) :
    l.EquippedAll (l.expand (l.stmt noExpansion)) code ∧ code.groups.Nodup := by
  have hhandle : l.member.handle ∈ l.program.tree.handles := by
    obtain ⟨x, hx, hmx⟩ := List.mem_map.1 hm
    rw [← hmx]
    exact hg.members (hplan.members x hx).1
  have hsids := (SyntaxTree.ids_sublist hhandle hcode).nodup hids
  refine ⟨fun t ht ↦ ?_, code.groups_sublist.nodup hsids⟩
  exact ⟨affords_body hg hplan hm hids hnames hcode t ht, hnames,
    (Stmt.headIds_sublist ht).nodup hsids, fun _ ↦ consistent_expandBody hg hplan hids hnames⟩

theorem fresh_begin (groups : List NodeId) (member : String) (returnType : Option HwType)
    (parameters : List ComponentPin) :
    ((Draft.empty member returnType).begin parameters).Fresh groups := by
  intro g _ callee
  rw [(spends_begin _ parameters).slots (g, callee) List.not_mem_nil]
  rfl

/-- Lowering a planned member runs into no defect. -/
theorem meets_component (hg : g.Spans l.program entries) (hplan : l.plan.Follows l.program g)
    (hm : l.member ∈ l.plan.components) (hids : l.program.tree.ids.Nodup)
    (hnames : l.program.NamesDistinct) :
    l.component.Meets fun c ↦ c.name = l.member.fullName := by
  unfold component
  refine (l.meets_require _ _).bind ?_
  intro code hcode
  obtain ⟨hequipped, hn⟩ := equippedAll_body hg hplan hm hids hnames hcode
  have hpins : ∀ q ∈ (l.program.tree.method l.member.handle).parameters,
      (l.pin q).Meets fun _ ↦ True := by
    intro q _
    refine (l.meets_parameterType _ q).bind ?_
    intro type _
    exact meets_ok trivial
  refine (Meets.mapM hpins).bind ?_
  intro parameters _
  refine (l.meets_resultType _).bind ?_
  intro returnType _
  have hfresh := fresh_begin code.groups l.member.fullName returnType parameters
  refine (lowers_stmt hequipped hn _ hfresh).bind ?_
  intro d _
  exact meets_ok rfl

end Lowering

end Fabric
