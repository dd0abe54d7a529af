import Fabric.Proofs.Calls.Slots
import Mathlib.Data.Fintype.Card

namespace Fabric

open Synthesis
open scoped List

namespace SyntaxTree

variable {t : SyntaxTree} {h : MemberHandle} {s u : Stmt}

theorem ids_sublist (hh : h ∈ t.handles) (hs : (t.method h).body = some s) : s.ids <+ t.ids := by
  have hsub := (stmtEntries_sublist hh hs).map ParentEntry.id
  rwa [ParentIndex.map_id_stmtEntries, ParentIndex.map_id_ofTree] at hsub

end SyntaxTree

theorem length_le_of_nodup {ids : List NodeId} (hn : ids.Nodup) : ids.length ≤ 2 ^ 32 := by
  have hfin : (ids.map UInt32.toFin).Nodup := hn.map fun _ _ h ↦ UInt32.toFin_inj.1 h
  have hle := hfin.length_le_card
  rwa [List.length_map, Fintype.card_fin] at hle

namespace Stmt

variable {s t : Stmt}

theorem length_headIds (t : Stmt) : t.headIds.length = t.ownNodes.length + 1 := by
  simp [headIds, ownNodes, Expr.ids, List.length_flatMap]

theorem headIds_sublist (ht : t ∈ s.nodes) : t.headIds <+ s.ids :=
  ParentIndex.sublist_flatMap ht

theorem map_id_sublist (s : Stmt) : s.nodes.map Stmt.id <+ s.ids := by
  unfold ids
  induction s.nodes with
  | nil => exact List.Sublist.refl _
  | cons t nodes ih =>
    rw [List.map_cons, List.flatMap_cons, headIds, List.cons_append]
    exact (ih.trans (List.sublist_append_right _ _)).cons_cons _

theorem length_ownNodes_lt (hn : s.ids.Nodup) (ht : t ∈ s.nodes) :
    t.ownNodes.length < 2 ^ 32 := by
  have hlen := length_le_of_nodup ((headIds_sublist ht).nodup hn)
  rw [length_headIds] at hlen
  exact hlen

theorem Grouped.own {p : Program} (h : s.Grouped p) :
    ∀ t ∈ s.nodes, ∀ c ∈ t.ownNodes, c.isCall → p.callGroup c.id = some t.id := by
  intro t ht c hc
  obtain ⟨e, he, hc⟩ := List.mem_flatMap.1 hc
  exact h t ht e he c hc

end Stmt

namespace CallPlan

variable {p : Program} {g : CallGraph} {entries : List MemberHandle}

structure Follows (plan : CallPlan) (p : Program) (g : CallGraph) : Prop where
  inlined : ∀ h ∈ plan.inlined, h ∈ g.members ∧ ∃ bounds, g.isInlinable p bounds h
  names : ∀ x ∈ plan.members.entries,
    x.2.fullName = x.1 ∧ x.1 = p.tree.memberFullName x.2.handle
  members : ∀ x ∈ plan.members.entries, x.2.handle ∈ g.members ∧
    x.2.invocations = g.invocations p plan.inlined x.2.handle

theorem meets_allocate (member : String) (demand selfCalls : UInt32) (bound : InstanceCount) :
    (CallGraph.allocate member demand selfCalls bound).Meets fun _ ↦ True := by
  have hexceeded {configured required : UInt32} :
      Meets (.error (.boundExceeded member configured required) : Synthesis UInt32)
        fun _ ↦ True := by
    apply meets_error
    intro reason h
    cases h
  unfold CallGraph.allocate
  split
  · split
    · exact meets_refused _ _
    · dsimp only
      split
      · exact hexceeded
      · exact meets_ok trivial
  · split
    · exact hexceeded
    · exact meets_ok trivial

theorem meets_ofProgram (he : entries ⊆ p.tree.handles) :
    (CallPlan.ofProgram p entries).Meets fun plan ↦ ∃ g, g.Spans p entries ∧ plan.Follows p g := by
  unfold CallPlan.ofProgram
  refine (CallGraph.meets_ofEntryPoints he).bind ?_
  intro g hg
  have hcheck : (g.checkRecursion p).Meets fun _ ↦ True := by
    unfold CallGraph.checkRecursion
    cases firstCycle (fun h ↦ (g.callees h).reverse) g.members with
    | none => exact meets_ok trivial
    | some members => exact meets_refused _ _
  refine hcheck.eq_ok.bind ?_
  rintro ⟨⟩ hcheck
  let bounds := InstanceTable.ofConfig p.config
  let inlined := g.inlined p bounds entries
  refine (CallGraph.meets_componentOrder hg hcheck inlined).bind ?_
  intro order horder
  let I (done : CallGraph.Planned) : Prop := ∀ x ∈ done.members.entries,
    (x.2.fullName = x.1 ∧ x.1 = p.tree.memberFullName x.2.handle) ∧
      x.2.handle ∈ g.members ∧ x.2.invocations = g.invocations p inlined x.2.handle
  have hfold : (order.foldlM (g.planMember p entries inlined) ⟨bounds, [], .empty⟩).Meets I := by
    refine Meets.foldlM I (List.forall_mem_nil _) ?_
    intro h hh done hdone
    unfold CallGraph.planMember
    dsimp only
    refine (meets_allocate _ _ _ _).bind ?_
    intro count _
    refine meets_ok ?_
    intro x hx
    rcases Dictionary.mem_insertEntry hx with rfl | hx
    · exact ⟨⟨rfl, rfl⟩, horder hh, rfl⟩
    · exact hdone x hx
  refine hfold.bind ?_
  intro planned hplanned
  refine meets_ok ⟨g, hg, ⟨?_, fun x hx ↦ (hplanned x hx).1, fun x hx ↦ (hplanned x hx).2⟩⟩
  intro h hh
  obtain ⟨hmem, hin⟩ := List.mem_filter.1 hh
  rw [Bool.and_eq_true] at hin
  exact ⟨hmem, bounds, hin.2⟩

end CallPlan

namespace Program

variable {p : Program}

theorem NamesDistinct.inj (hp : p.NamesDistinct) {h h' : MemberHandle} (hh : h ∈ p.tree.handles)
    (hh' : h' ∈ p.tree.handles) (heq : p.tree.memberFullName h = p.tree.memberFullName h') :
    h = h' :=
  List.inj_on_of_nodup_map hp hh hh' heq

end Program

namespace CallGraph

variable {p : Program} {g : CallGraph} {entries inlined : List MemberHandle}

theorem get?_invocations (hp : p.NamesDistinct) {h c : MemberHandle} {s : CallSummary}
    {sites : List CallSite} (hs : g.summary? h = some s)
    (hcallees : s.callees = (p.tree.handles.filter fun c ↦ sites.any fun x ↦ x.callee = c).map
      fun c ↦ (c, largestGroup sites c))
    (hc : c ∈ p.tree.handles) (hany : ∃ x ∈ sites, x.callee = c) (hnot : c ∉ inlined) :
    (g.invocations p inlined h).get? (p.tree.memberFullName c) = some (largestGroup sites c) := by
  unfold invocations
  rw [hs]
  refine Dictionary.get?_ofList (List.mem_map.2 ⟨(c, largestGroup sites c), ?_, rfl⟩) ?_
  · obtain ⟨x, hx, rfl⟩ := hany
    rw [hcallees, List.mem_filter]
    refine ⟨List.mem_map_of_mem (List.mem_filter.2 ⟨hc, ?_⟩), by simpa using hnot⟩
    exact List.any_eq_true.2 ⟨x, hx, decide_eq_true rfl⟩
  · intro y hy hname
    obtain ⟨z, hz, rfl⟩ := List.mem_map.1 hy
    have hz := List.mem_of_mem_filter hz
    rw [hcallees] at hz
    obtain ⟨c', hc', rfl⟩ := List.mem_map.1 hz
    obtain rfl := hp.inj (List.mem_of_mem_filter hc') hc hname
    rfl

end CallGraph

namespace Lowering

def slotsFor (l : Lowering) (h : MemberHandle) : UInt32 :=
  (l.member.invocations.get? (l.program.tree.memberFullName h)).getD 0

structure AffordsOwn (l : Lowering) (t : Stmt) : Prop where
  grouped : ∀ c ∈ t.ownNodes, c.isCall → l.program.callGroup c.id = some t.id
  calls : t.isParallel = false → ∀ h ∈ l.program.tree.handles, l.plan.isInlined h = false →
    t.ownNodes.countP (Expr.calls l.program.tree h) ≤ (l.slotsFor h).toNat
  copies : ∀ id count index call results, t = .parallel id count index call results →
    ∃ copies callId target args, count.copies = some copies ∧ call = .call callId target args ∧
      (∀ a ∈ args, a.containsCall = false) ∧ ∀ h, l.program.tree.resolveCall target = some h →
        l.plan.isInlined h = false ∧ copies ≤ l.slotsFor h

def Affords (l : Lowering) (s : Stmt) : Prop :=
  ∀ t ∈ s.nodes, l.AffordsOwn t

variable {l : Lowering} {g : CallGraph} {entries : List MemberHandle} {s : Stmt}

theorem sum_of_members (hg : g.Spans l.program entries) {h : MemberHandle} (hh : h ∈ g.members)
    (hs : (l.program.tree.method h).body = some s) :
    ∃ sm sites, g.summary? h = some sm ∧
      List.Forall₂ (fun t x ↦ l.program.stmtSites (l.program.tree.memberFullName h)
        (ParentIndex.ofTree l.program.tree) t = .ok x) s.nodes sites ∧
      sm.callees = (l.program.tree.handles.filter fun c ↦
        sites.flatten.any fun x ↦ x.callee = c).map (fun c ↦ (c, largestGroup sites.flatten c)) ∧
      sm.parallel = (sites.flatten.filter CallSite.isParallel).map CallSite.callee := by
  obtain ⟨sm, hsm⟩ := Option.isSome_iff_exists.1 (CallGraph.mem_members.1 hh)
  obtain ⟨body, sites, hbody, hsites, hcallees, hparallel⟩ :=
    Program.callSummary_eq (hg.summary h sm hsm)
  obtain rfl := Option.some.inj (hs.symm.trans hbody)
  exact ⟨sm, sites, hsm, hsites, hcallees, hparallel⟩

/-- The plan affords the body of a component. -/
theorem affords_body (hg : g.Spans l.program entries) (hplan : l.plan.Follows l.program g)
    (hm : l.member ∈ l.plan.components) (hids : l.program.tree.ids.Nodup)
    (hnames : l.program.NamesDistinct)
    (hs : (l.program.tree.method l.member.handle).body = some s) : l.Affords s := by
  obtain ⟨⟨name, m⟩, hx, hmx⟩ := List.mem_map.1 hm
  dsimp only at hmx
  subst hmx
  obtain ⟨hmember, hinvocations⟩ := hplan.members _ hx
  have hhandle := hg.members hmember
  have hsids : s.ids.Nodup := (SyntaxTree.ids_sublist hhandle hs).nodup hids
  have hgrouped : s.Grouped l.program := Program.callsGrouped hids _ hhandle s hs
  obtain ⟨sm, sites, hsm, hsites, hcallees, hparallel⟩ := sum_of_members hg hmember hs
  have hnodes := s.map_id_sublist.nodup hsids
  have hslots {c : MemberHandle} (hc : c ∈ l.program.tree.handles)
      (hany : ∃ x ∈ sites.flatten, x.callee = c) (hnot : l.plan.isInlined c = false) :
      l.slotsFor c = largestGroup sites.flatten c := by
    have hnot : c ∉ l.plan.inlined := by simpa [CallPlan.isInlined] using hnot
    unfold slotsFor
    rw [hinvocations, CallGraph.get?_invocations hnames hsm hcallees hc hany hnot, Option.getD_some]
  intro t ht
  refine ⟨hgrouped.own t ht, ?_, ?_⟩
  · intro hsequential h hh hnot
    rcases Nat.eq_zero_or_pos (t.ownNodes.countP (Expr.calls l.program.tree h)) with hzero | hpos
    · omega
    have hsize := Program.groupSize_eq hsites hgrouped.own hnodes ht hsequential
      (Stmt.length_ownNodes_lt hsids ht) h
    have hcounts := Program.counts_stmtSites hsequential (hgrouped.own t ht)
      (Program.filter_group hsites hgrouped.own hnodes ht)
    -- The group of the statement has a call to the member, so it counts for the largest group.
    obtain ⟨x, hx⟩ : ∃ x, x ∈ (sites.flatten.filter fun x ↦ x.group = t.id).filter
        fun x ↦ x.callee = h := by
      apply List.exists_mem_of_ne_nil
      intro hnil
      have hcopies := hcounts.copies h
      rw [hnil] at hcopies
      have := congrArg List.length hcopies
      rw [List.length_replicate] at this
      simp only [List.map_nil, List.length_nil] at this
      omega
    obtain ⟨hx, hcallee⟩ := List.mem_filter.1 hx
    have hgroup := hcounts.group x hx
    have hx := List.mem_of_mem_filter hx
    rw [hslots hh ⟨x, hx, of_decide_eq_true hcallee⟩ hnot, ← hsize, ← hgroup]
    exact UInt32.le_iff_toNat_le.1 (le_largestGroup hx h)
  · rintro id count index call results rfl
    obtain ⟨xs, hxs⟩ : ∃ xs, l.program.stmtSites (l.program.tree.memberFullName l.member.handle)
        (ParentIndex.ofTree l.program.tree) (.parallel id count index call results) = .ok xs :=
      ⟨_, Program.filter_group hsites hgrouped.own hnodes ht⟩
    obtain ⟨copies, callId, target, args, c, hcount, hcall, hargs, hresolve, rfl⟩ :=
      Program.stmtSites_parallel hxs
    obtain ⟨hx, hsize⟩ := Program.groupSize_parallel hsites hgrouped.own hnodes ht hxs
    refine ⟨copies, callId, target, args, hcount, hcall, hargs, ?_⟩
    intro h hh
    obtain rfl := Option.some.inj (hresolve.symm.trans hh)
    have hstarted : c ∈ g.parallel := by
      refine List.mem_flatMap.2 ⟨(l.member.handle, sm), mem_of_lookup hsm, ?_⟩
      rw [hparallel]
      exact List.mem_map.2 ⟨_, List.mem_filter.2 ⟨hx, rfl⟩, rfl⟩
    have hnot : l.plan.isInlined c = false := by
      by_contra hin
      have hin : c ∈ l.plan.inlined := by simpa [CallPlan.isInlined] using hin
      obtain ⟨-, bounds, hinlinable⟩ := hplan.inlined c hin
      simp [CallGraph.isInlinable, hstarted] at hinlinable
    refine ⟨hnot, ?_⟩
    rw [hslots (SyntaxTree.mem_handles_of_resolveCall hresolve) ⟨_, hx, rfl⟩ hnot]
    calc copies = groupSize sites.flatten id c := hsize.symm
      _ ≤ largestGroup sites.flatten c := le_largestGroup hx c

/-- The body of a member that is expanded has no calls. -/
theorem affords_expanded (hg : g.Spans l.program entries) (hplan : l.plan.Follows l.program g)
    (hids : l.program.tree.ids.Nodup) {h : MemberHandle} (hh : l.plan.isInlined h)
    (hs : (l.program.tree.method h).body = some s) :
    l.Affords s ∧ s.containsCall = false := by
  have hin : h ∈ l.plan.inlined := by simpa [CallPlan.isInlined] using hh
  obtain ⟨hmember, bounds, hinlinable⟩ := hplan.inlined h hin
  have hhandle := hg.members hmember
  have hgrouped : s.Grouped l.program := Program.callsGrouped hids _ hhandle s hs
  have hsids : s.ids.Nodup := (SyntaxTree.ids_sublist hhandle hs).nodup hids
  obtain ⟨sm, sites, hsm, hsites, hcallees, -⟩ := sum_of_members hg hmember hs
  have hnodes := s.map_id_sublist.nodup hsids
  simp only [CallGraph.isInlinable, hs, Bool.and_eq_true, Bool.not_eq_true'] at hinlinable
  obtain ⟨⟨⟨⟨-, hempty⟩, -⟩, -⟩, hloop⟩ := hinlinable
  have hnone : sm.callees = [] := by
    unfold CallGraph.callees at hempty
    rw [hsm] at hempty
    simpa using hempty
  have hsequential (t : Stmt) (ht : t ∈ s.nodes) : t.isParallel = false := by
    have hnot : t.isLoop = false := by
      by_contra hl
      have : s.containsLoop = true := List.any_eq_true.2 ⟨t, ht, by simpa using hl⟩
      rw [hloop] at this
      cases this
    cases t with
    | parallel => cases hnot
    | _ => rfl
  have hcalls (t : Stmt) (ht : t ∈ s.nodes) (c : Expr) (hc : c ∈ t.ownNodes) : c.isCall = false := by
    by_contra hcall
    have hcounts := Program.counts_stmtSites (hsequential t ht) (hgrouped.own t ht)
      (Program.filter_group hsites hgrouped.own hnodes ht)
    obtain ⟨x, hx, -⟩ := hcounts.resolved c hc (by simpa using hcall)
    have hmem : x.callee ∈ l.program.tree.handles.filter fun c ↦
        sites.flatten.any fun x ↦ x.callee = c :=
      List.mem_filter.2 ⟨hcounts.handles x hx,
        List.any_eq_true.2 ⟨x, List.mem_of_mem_filter hx, decide_eq_true rfl⟩⟩
    rw [hcallees, List.map_eq_nil_iff] at hnone
    rw [hnone] at hmem
    cases hmem
  constructor
  · intro t ht
    refine ⟨hgrouped.own t ht, ?_, ?_⟩
    · intro _ k _ _
      have hzero : t.ownNodes.countP (Expr.calls l.program.tree k) = 0 := by
        rw [List.countP_eq_zero]
        intro c hc hk
        have hnot := hcalls t ht c hc
        cases c with
        | call => cases hnot
        | _ => cases hk
      rw [hzero]
      exact Nat.zero_le _
    · rintro id count index call results rfl
      cases hsequential _ ht
  · by_contra hcall
    rw [Bool.not_eq_false, Stmt.containsCall, List.any_eq_true] at hcall
    obtain ⟨c, hc, hcall⟩ := hcall
    obtain ⟨t, ht, hc⟩ := List.mem_flatMap.1 hc
    rw [hcalls t ht c hc] at hcall
    cases hcall

end Lowering

end Fabric
