import Mathlib.Algebra.Order.BigOperators.Group.List
import Mathlib.Algebra.Order.Group.Nat
import Fabric.Proofs.Calls.Groups
import Fabric.Proofs.Config.Bounds

namespace Fabric

open Synthesis
open scoped List

theorem sum_map_filter {α : Type} {f : α → Nat} {q : α → Bool} {as : List α}
    (h : ∀ a ∈ as, q a = false → f a = 0) : ((as.filter q).map f).sum = (as.map f).sum := by
  induction as with
  | nil => rfl
  | cons a as ih =>
    obtain ⟨ha, has⟩ := List.forall_mem_cons.1 h
    rw [List.map_cons, List.sum_cons, ← ih has]
    by_cases hq : q a = true
    · rw [List.filter_cons_of_pos hq, List.map_cons, List.sum_cons]
    · rw [List.filter_cons_of_neg hq, ha (Bool.eq_false_iff.2 hq), Nat.zero_add]

theorem pairwise_of_respects {α : Type} [DecidableEq α] {next : α → List α} {order : List α}
    (h : respects next order = true) : order.Pairwise fun a b ↦ a ∉ next b := by
  induction order with
  | nil => exact .nil
  | cons a rest ih =>
    rw [respects, Bool.and_eq_true, List.all_eq_true] at h
    refine List.pairwise_cons.2 ⟨fun b hb ↦ ?_, ih h.2⟩
    simpa using h.1 b hb

namespace CallGraph

variable {g : CallGraph} {p : Program} {entries inlined : List MemberHandle}

theorem toNat_saturate {n : Nat} (h : n < 2 ^ 32) : (saturate n).toNat = n := by
  have hle : min n 4294967295 = n := Nat.min_eq_left (Nat.le_of_lt_succ h)
  rw [saturate, hle, UInt32.toNat_ofNat_of_lt' h]

theorem toNat_saturate_pos {n : Nat} (h : 0 < n) : 0 < (saturate n).toNat := by
  have hle : min n 4294967295 < 2 ^ 32 := by omega
  rw [saturate, UInt32.toNat_ofNat_of_lt' hle]
  omega

theorem allocate_eq_ok {member : String} {demand selfCalls : UInt32} {bound : InstanceCount}
    {count : UInt32} (h : allocate member demand selfCalls bound = .ok count) :
    (0 < selfCalls → bound.isDefault = false ∧ count = bound.max ∧
      saturate (demand.toNat + selfCalls.toNat) ≤ bound.max) ∧
    (¬ 0 < selfCalls → count = max demand 1 ∧ (bound.isDefault = false → demand ≤ bound.max)) := by
  unfold allocate at h
  by_cases hself : 0 < selfCalls
  · rw [if_pos hself] at h
    refine ⟨fun _ ↦ ?_, fun hnot ↦ absurd hself hnot⟩
    split at h
    next => cases h
    next hdefault =>
      dsimp only at h
      split at h
      next => cases h
      next hle =>
        exact ⟨Bool.eq_false_iff.2 hdefault, (Except.ok.inj h).symm, UInt32.not_lt.1 hle⟩
  · rw [if_neg hself] at h
    refine ⟨fun hpos ↦ absurd hpos hself, fun _ ↦ ?_⟩
    split at h
    next => cases h
    next hle =>
      refine ⟨(Except.ok.inj h).symm, fun hdefault ↦ ?_⟩
      rw [hdefault] at hle
      simpa using hle

theorem members_sublist (hg : CallGraph.ofEntryPoints p entries = .ok g) :
    g.members <+ p.tree.handles := by
  obtain ⟨found, -, heq⟩ := Synthesis.bind_eq_ok.1 hg
  obtain rfl := Except.ok.inj heq
  have hsub (handles : List MemberHandle) : (handles.filterMap fun h ↦
      (found.lookup h).map fun s ↦ (h, s)).map Prod.fst <+ handles := by
    induction handles with
    | nil => exact .slnil
    | cons h handles ih =>
      rw [List.filterMap_cons]
      cases found.lookup h with
      | none => exact ih.cons _
      | some s => exact ih.cons_cons _
  exact hsub _

theorem summary?_of_mem (hg : CallGraph.ofEntryPoints p entries = .ok g)
    {x : MemberHandle × CallSummary} (hx : x ∈ g.summaries) : g.summary? x.1 = some x.2 := by
  obtain ⟨found, -, heq⟩ := Synthesis.bind_eq_ok.1 hg
  obtain rfl := Except.ok.inj heq
  obtain ⟨h, hh, hx⟩ := List.mem_filterMap.1 hx
  obtain ⟨s, hs, rfl⟩ := Option.map_eq_some_iff.1 hx
  rw [summary?, lookup_filterMap, if_pos hh]
  exact hs

theorem getD_slots? (hids : p.tree.ids.Nodup) (hg : g.Spans p entries) {k h : MemberHandle}
    {s : CallSummary} (hs : g.summary? k = some s) :
    ((s.slots? h).map UInt32.toNat).getD 0 = p.mostCalls k h := by
  have hslots (n : UInt32) := Program.slots?_eq hids (hg.summary k s hs) (c := h) (n := n)
  cases hn : s.slots? h with
  | some n => exact ((hslots n).1 hn).2
  | none =>
    rw [Program.mostCalls_eq_zero]
    · rfl
    · intro hcalls
      have hmem := (Program.mem_callees_iff (hg.summary k s hs)).2 hcalls
      obtain ⟨⟨c, n⟩, hc, rfl⟩ := List.mem_map.1 hmem
      rw [(Program.mem_callees_iff_slots? (hg.summary k s hs)).1 hc] at hn
      cases hn

theorem toNat_selfCalls (hids : p.tree.ids.Nodup) (hg : g.Spans p entries) {h : MemberHandle}
    (hh : h ∈ g.members) : (g.selfCalls h).toNat = p.mostCalls h h := by
  obtain ⟨s, hs⟩ := Option.isSome_iff_exists.1 (mem_members.1 hh)
  rw [← getD_slots? hids hg hs, selfCalls, hs, Option.bind_some]
  cases s.slots? h <;> rfl

def planned (counts : List (MemberHandle × UInt32)) (h : MemberHandle) : Nat :=
  ((counts.lookup h).map UInt32.toNat).getD 0

def exactDemand (g : CallGraph) (p : Program) (entries : List MemberHandle)
    (counts : List (MemberHandle × UInt32)) (h : MemberHandle) : Nat :=
  (if h ∈ entries then 1 else 0) +
    (g.members.map fun k ↦ if k = h then 0 else planned counts k * p.mostCalls k h).sum

theorem demand_eq (hids : p.tree.ids.Nodup) (hg : CallGraph.ofEntryPoints p entries = .ok g)
    (counts : List (MemberHandle × UInt32)) (h : MemberHandle) :
    g.demand entries counts h = saturate (g.exactDemand p entries counts h) := by
  have hspans := spans_ofEntryPoints hg
  refine congrArg saturate (congrArg₂ (· + ·) (by simp) ?_)
  rw [← List.sum_eq_foldl, members, List.map_map]
  refine congrArg List.sum (List.map_congr_left ?_)
  rintro ⟨k, s⟩ hx
  dsimp only [Function.comp_apply]
  rw [← getD_slots? hids hspans (summary?_of_mem hg hx), planned]
  cases s.slots? h <;> cases counts.lookup k <;> simp [Nat.mul_comm]

/-- The instances of a member that does not call another one are nothing that the other one needs. -/
theorem exactDemand_cons {counts : List (MemberHandle × UInt32)} {h k : MemberHandle}
    (hk : k = h ∨ ¬ p.Calls k h) (count : UInt32) :
    g.exactDemand p entries ((k, count) :: counts) h = g.exactDemand p entries counts h := by
  unfold exactDemand
  refine congrArg₂ (· + ·) rfl (congrArg List.sum (List.map_congr_left fun c _ ↦ ?_))
  by_cases hc : c = k
  · subst hc
    rcases hk with rfl | hk
    · rw [if_pos rfl, if_pos rfl]
    · rw [Program.mostCalls_eq_zero hk, Nat.mul_zero, Nat.mul_zero]
  · rw [planned, planned, List.lookup_cons, beq_false_of_ne hc]

def memberPlan (g : CallGraph) (p : Program) (entries inlined : List MemberHandle)
    (h : MemberHandle) (count : UInt32) : MemberPlan where
  handle := h
  fullName := p.tree.memberFullName h
  instances := count
  isEntry := entries.contains h
  invocations := g.invocations p inlined h

structure Plans (g : CallGraph) (p : Program) (entries inlined before : List MemberHandle)
    (done : Planned) : Prop where
  bounds : (InstanceTable.ofConfig p.config).Refines done.bounds
  counted : ∀ h, (done.counts.lookup h).isSome ↔ h ∈ before
  members : ∀ name m, done.members.get? name = some m ↔
    ∃ h count, done.counts.lookup h = some count ∧ name = p.tree.memberFullName h ∧
      m = g.memberPlan p entries inlined h count
  allocated : ∀ h count, done.counts.lookup h = some count →
    ∃ t, (InstanceTable.ofConfig p.config).Refines t ∧
      allocate (p.tree.memberFullName h) (saturate (g.exactDemand p entries done.counts h))
        (g.selfCalls h) (t.lookup (p.tree.memberFullName h)).1.2 = .ok count

theorem plans_start : g.Plans p entries inlined [] ⟨.ofConfig p.config, [], .empty⟩ where
  bounds := .refl _
  counted := by simp
  members := by simp
  allocated := by simp

theorem Plans.planMember {before : List MemberHandle} {done done' : Planned} {k : MemberHandle}
    (hdone : g.Plans p entries inlined before done) (hids : p.tree.ids.Nodup)
    (hnames : p.NamesDistinct) (hg : CallGraph.ofEntryPoints p entries = .ok g)
    (hbefore : before ⊆ p.tree.handles) (hk : k ∈ p.tree.handles) (hnew : k ∉ before)
    (hcalls : ∀ h ∈ before, ¬ p.Calls k h)
    (hstep : g.planMember p entries inlined done k = .ok done') :
    g.Plans p entries inlined (k :: before) done' := by
  unfold CallGraph.planMember at hstep
  dsimp only at hstep
  obtain ⟨count, hcount, hstep⟩ := Synthesis.bind_eq_ok.1 hstep
  obtain rfl := Except.ok.inj hstep
  have hlookup (h : MemberHandle) : ((k, count) :: done.counts).lookup h =
      if h = k then some count else done.counts.lookup h := by
    rw [List.lookup_cons]
    by_cases hhk : h = k
    · simp [hhk]
    · rw [beq_false_of_ne hhk, if_neg hhk]
  have hother {h : MemberHandle} {n : UInt32} (hn : done.counts.lookup h = some n) : h ∈ before :=
    (hdone.counted h).1 (Option.isSome_iff_exists.2 ⟨n, hn⟩)
  have hne {h : MemberHandle} (hh : h ∈ before) : h ≠ k := by
    rintro rfl
    exact hnew hh
  refine ⟨hdone.bounds.lookup _, fun h ↦ ?_, fun name m ↦ ?_, fun h n hn ↦ ?_⟩
  · dsimp only
    rw [hlookup, List.mem_cons, ← hdone.counted h]
    by_cases hhk : h = k
    · simp [hhk]
    · simp [hhk]
  · rw [Dictionary.get?_insert]
    by_cases hname : name = p.tree.memberFullName k
    · rw [if_pos hname]
      constructor
      · intro hm
        exact ⟨k, count, by simp [hlookup], hname, (Option.some.inj hm).symm⟩
      · rintro ⟨h, n, hn, hh, rfl⟩
        rw [hlookup] at hn
        by_cases hhk : h = k
        · rw [if_pos hhk] at hn
          rw [hhk, ← Option.some.inj hn]
          rfl
        · rw [if_neg hhk] at hn
          exact absurd (hnames.inj (hbefore (hother hn)) hk (hh.symm.trans hname)) hhk
    · rw [if_neg hname, hdone.members]
      constructor
      · rintro ⟨h, n, hn, hh, rfl⟩
        exact ⟨h, n, by rw [hlookup, if_neg (hne (hother hn)), hn], hh, rfl⟩
      · rintro ⟨h, n, hn, hh, rfl⟩
        rw [hlookup] at hn
        split at hn
        next hhk => exact absurd (hhk ▸ hh) hname
        next => exact ⟨h, n, hn, hh, rfl⟩
  · dsimp only at hn ⊢
    rw [hlookup] at hn
    split at hn
    next hhk =>
      obtain rfl := Option.some.inj hn
      subst hhk
      refine ⟨done.bounds, hdone.bounds, ?_⟩
      rw [exactDemand_cons (.inl rfl), ← demand_eq hids hg]
      exact hcount
    next =>
      obtain ⟨t, ht, hallocate⟩ := hdone.allocated h n hn
      refine ⟨t, ht, ?_⟩
      rw [exactDemand_cons (.inr (hcalls h (hother hn)))]
      exact hallocate

theorem Plans.foldlM {order before : List MemberHandle} {done done' : Planned}
    (hdone : g.Plans p entries inlined before done) (hids : p.tree.ids.Nodup)
    (hnames : p.NamesDistinct) (hg : CallGraph.ofEntryPoints p entries = .ok g)
    (hhandles : before ++ order ⊆ p.tree.handles) (hnodup : (before ++ order).Nodup)
    (horder : order.Pairwise fun a b ↦ ¬ p.Calls b a)
    (hbefore : ∀ a ∈ before, ∀ b ∈ order, ¬ p.Calls b a)
    (hfold : order.foldlM (g.planMember p entries inlined) done = .ok done') :
    ∃ all, all ~ before ++ order ∧ g.Plans p entries inlined all done' := by
  induction order generalizing before done with
  | nil =>
    obtain rfl := Except.ok.inj hfold
    exact ⟨before, by rw [List.append_nil], hdone⟩
  | cons k order ih =>
    rw [List.foldlM_cons] at hfold
    obtain ⟨next, hnext, hfold⟩ := Synthesis.bind_eq_ok.1 hfold
    have hperm : before ++ k :: order ~ k :: before ++ order := List.perm_middle
    obtain ⟨hlater, horder⟩ := List.pairwise_cons.1 horder
    have hnew : k ∉ before ++ order := (List.nodup_cons.1 (hperm.nodup_iff.1 hnodup)).1
    have hstep := hdone.planMember hids hnames hg
      (fun h hh ↦ hhandles (List.mem_append_left _ hh))
      (hhandles (List.mem_append_right _ List.mem_cons_self))
      (fun hk ↦ hnew (List.mem_append_left _ hk))
      (fun h hh ↦ hbefore h hh k List.mem_cons_self) hnext
    obtain ⟨all, hall, hplans⟩ := ih hstep (fun h hh ↦ hhandles (hperm.mem_iff.2 hh))
      (hperm.nodup_iff.1 hnodup) horder
      (List.forall_mem_cons.2 ⟨hlater, fun a ha b hb ↦ hbefore a ha b (List.mem_cons_of_mem _ hb)⟩)
      hfold
    exact ⟨all, hall.trans hperm.symm, hplans⟩

theorem componentOrder_eq_ok (hg : g.Spans p entries) {order : List MemberHandle}
    (h : g.componentOrder inlined = .ok order) :
    order.Nodup ∧
    (∀ h, h ∈ order ↔ h ∈ g.members ∧ h ∉ inlined) ∧
    order.Pairwise fun a b ↦ ¬ p.Calls b a := by
  have hclosed := closed_componentCallees hg inlined
  unfold componentOrder callersFirst at h
  dsimp only at h
  split at h
  next found hfound =>
    obtain rfl := Except.ok.inj h
    split at hfound
    next hrespects =>
      obtain rfl := Option.some.inj hfound
      have hnodup := List.nodup_reverse.2 (leavingOrder_goes hclosed).1.nodup
      have hmem (h : MemberHandle) : h ∈ (leavingOrder (g.componentCallees inlined)
          (g.members.filter fun h ↦ !inlined.contains h)).reverse ↔ h ∈ g.members ∧ h ∉ inlined := by
        rw [List.mem_reverse, mem_leavingOrder hclosed, List.mem_filter]
        simp
      refine ⟨hnodup, hmem, ?_⟩
      refine ((pairwise_of_respects hrespects).and hnodup).imp_of_mem ?_
      rintro a b ha hb ⟨hnot, hne⟩ hcalls
      apply hnot
      rw [componentCallees, List.mem_filter, mem_callees_iff hg ((hmem b).1 hb).1]
      exact ⟨hcalls, by simpa using ⟨hne, ((hmem a).1 ha).2⟩⟩
    next => cases hfound
  next => cases h

theorem of_mem_inlined (hg : CallGraph.ofEntryPoints p entries = .ok g) {bounds : InstanceTable}
    {h : MemberHandle} (hh : h ∈ g.inlined p bounds entries) :
    h ∈ g.members ∧ h ∉ entries ∧ (∀ c, ¬ p.Calls h c) ∧
      ∀ k ∈ g.members, ¬ p.StartsParallel k h := by
  have hspans := spans_ofEntryPoints hg
  obtain ⟨hmem, hinline⟩ := List.mem_filter.1 hh
  simp only [isInlinable, Bool.and_eq_true, Bool.not_eq_true', List.isEmpty_iff] at hinline
  obtain ⟨hentry, ⟨⟨⟨-, hempty⟩, hparallel⟩, -⟩, -⟩ := hinline
  refine ⟨hmem, by simpa using hentry, fun c hc ↦ ?_, fun k hk hstarts ↦ ?_⟩
  · have hc := (mem_callees_iff hspans hmem).2 hc
    rw [hempty] at hc
    cases hc
  · obtain ⟨s, hs⟩ := Option.isSome_iff_exists.1 (mem_members.1 hk)
    have hin : h ∈ g.parallel :=
      List.mem_flatMap.2 ⟨(k, s), mem_of_lookup hs, hstarts.mem_parallel (hspans.summary k s hs)⟩
    rw [List.contains_iff_mem.2 hin] at hparallel
    cases hparallel

theorem get?_invocations_iff (hids : p.tree.ids.Nodup) (hnames : p.NamesDistinct)
    (hg : g.Spans p entries) {h : MemberHandle} (hh : h ∈ g.members) {name : String} {n : UInt32} :
    (g.invocations p inlined h).get? name = some n ↔ ∃ c, c ∉ inlined ∧ p.Calls h c ∧
      name = p.tree.memberFullName c ∧ n.toNat = p.mostCalls h c := by
  obtain ⟨s, hs⟩ := Option.isSome_iff_exists.1 (mem_members.1 hh)
  have hsummary := hg.summary h s hs
  have hslots (c : MemberHandle) (n : UInt32) :
      (c, n) ∈ s.callees ↔ p.Calls h c ∧ n.toNat = p.mostCalls h c := by
    rw [Program.mem_callees_iff_slots? hsummary, Program.slots?_eq hids hsummary]
  have hmem : ∀ x, x ∈ (s.callees.filter fun c ↦ !inlined.contains c.1).map
      (fun c ↦ (p.tree.memberFullName c.1, c.2)) ↔ ∃ c, c ∉ inlined ∧ p.Calls h c ∧
        x.1 = p.tree.memberFullName c ∧ x.2.toNat = p.mostCalls h c := by
    intro x
    constructor
    · intro hx
      obtain ⟨⟨c, m⟩, hc, rfl⟩ := List.mem_map.1 hx
      obtain ⟨hc, hnot⟩ := List.mem_filter.1 hc
      obtain ⟨hcalls, hm⟩ := (hslots c m).1 hc
      exact ⟨c, by simpa using hnot, hcalls, rfl, hm⟩
    · rintro ⟨c, hnot, hcalls, hname, hm⟩
      refine List.mem_map.2 ⟨(c, x.2), List.mem_filter.2 ⟨?_, by simpa using hnot⟩, ?_⟩
      · exact (hslots c x.2).2 ⟨hcalls, hm⟩
      · rw [← hname]
  have hhandle {c : MemberHandle} (hc : p.Calls h c) : c ∈ p.tree.handles :=
    Program.mem_handles_of_callSummary hsummary ((Program.mem_callees_iff hsummary).2 hc)
  unfold invocations
  rw [hs]
  constructor
  · intro hget
    exact (hmem (name, n)).1 (Dictionary.mem_of_get?_ofList hget)
  · intro hexists
    refine Dictionary.get?_ofList ((hmem (name, n)).2 hexists) fun x hx hname ↦ ?_
    obtain ⟨c, -, hc, hname', hm⟩ := hexists
    obtain ⟨c', -, hc', hx', hm'⟩ := (hmem x).1 hx
    obtain rfl := hnames.inj (hhandle hc') (hhandle hc) (hx'.symm.trans (hname.trans hname'))
    exact UInt32.toNat_inj.1 (hm'.trans hm.symm)

/-- The slots for a member that is not expanded are the most calls that a statement makes. -/
theorem getD_invocations (hids : p.tree.ids.Nodup) (hnames : p.NamesDistinct)
    (hg : g.Spans p entries) {h c : MemberHandle} (hh : h ∈ g.members) (hc : c ∈ p.tree.handles)
    (hnot : c ∉ inlined) :
    (((g.invocations p inlined h).get? (p.tree.memberFullName c)).map UInt32.toNat).getD 0 =
      p.mostCalls h c := by
  have hget {n : UInt32} :
      (g.invocations p inlined h).get? (p.tree.memberFullName c) = some n ↔ ∃ k, k ∉ inlined ∧
        p.Calls h k ∧ p.tree.memberFullName c = p.tree.memberFullName k ∧
          n.toNat = p.mostCalls h k := get?_invocations_iff hids hnames hg hh
  obtain ⟨s, hs⟩ := Option.isSome_iff_exists.1 (mem_members.1 hh)
  have hsummary := hg.summary h s hs
  have hhandle {c : MemberHandle} (hc : p.Calls h c) : c ∈ p.tree.handles :=
    Program.mem_handles_of_callSummary hsummary ((Program.mem_callees_iff hsummary).2 hc)
  cases hn : (g.invocations p inlined h).get? (p.tree.memberFullName c) with
  | some n =>
    obtain ⟨c', -, hcalls, hname, hm⟩ := hget.1 hn
    obtain rfl := hnames.inj hc (hhandle hcalls) hname
    exact hm
  | none =>
    refine (Program.mostCalls_eq_zero fun hcalls ↦ ?_).symm
    obtain ⟨⟨c', n⟩, hmem, rfl⟩ := List.mem_map.1 ((Program.mem_callees_iff hsummary).2 hcalls)
    have hm := (Program.slots?_eq hids hsummary).1
      ((Program.mem_callees_iff_slots? hsummary).1 hmem)
    rw [hget.2 ⟨c', hnot, hcalls, rfl, hm.2⟩] at hn
    cases hn

end CallGraph

namespace MemberPlan

def slotsFor (m : MemberPlan) (name : String) : Nat :=
  ((m.invocations.get? name).map UInt32.toNat).getD 0

end MemberPlan

namespace CallPlan

variable {plan : CallPlan} {p : Program} {entries : List MemberHandle} {g : CallGraph}
  {counts : List (MemberHandle × UInt32)} {m : MemberPlan}

/-- The instances of a component that others need: one for every slot of every instance of a caller,
and one for the outside if it is an entry point. -/
def demand (plan : CallPlan) (m : MemberPlan) : Nat :=
  (if m.isEntry then 1 else 0) + (plan.components.map fun c ↦
    if c.handle = m.handle then 0 else c.instances.toNat * c.slotsFor m.fullName).sum

structure Derives (plan : CallPlan) (p : Program) (entries : List MemberHandle) (g : CallGraph)
    (counts : List (MemberHandle × UInt32)) : Prop where
  ids : p.tree.ids.Nodup
  names : p.NamesDistinct
  graph : CallGraph.ofEntryPoints p entries = .ok g
  inlined : plan.inlined = g.inlined p (.ofConfig p.config) entries
  plans : g.Plans p entries plan.inlined (g.members.filter fun h ↦ !plan.inlined.contains h)
    ⟨plan.instances, counts, plan.members⟩

theorem exists_derives (hids : p.tree.ids.Nodup) (hnames : p.NamesDistinct)
    (h : CallPlan.ofProgram p entries = .ok plan) :
    ∃ g counts, plan.Derives p entries g counts := by
  obtain ⟨g, hg, h⟩ := Synthesis.bind_eq_ok.1 h
  obtain ⟨-, -, h⟩ := Synthesis.bind_eq_ok.1 h
  obtain ⟨order, horder, h⟩ := Synthesis.bind_eq_ok.1 h
  obtain ⟨planned, hplanned, h⟩ := Synthesis.bind_eq_ok.1 h
  obtain rfl := Except.ok.inj h
  have hspans := CallGraph.spans_ofEntryPoints hg
  obtain ⟨hnodup, hmem, hpairs⟩ := CallGraph.componentOrder_eq_ok hspans horder
  obtain ⟨all, hall, hplans⟩ := CallGraph.plans_start.foldlM hids hnames hg
    (fun h hh ↦ hspans.members ((hmem h).1 hh).1) hnodup hpairs (List.forall_mem_nil _) hplanned
  refine ⟨g, planned.counts, hids, hnames, hg, rfl, { hplans with counted := fun h ↦ ?_ }⟩
  rw [hplans.counted h, hall.mem_iff, List.nil_append, hmem, List.mem_filter]
  simp

namespace Derives

theorem mem_components (hd : plan.Derives p entries g counts) : m ∈ plan.components ↔
    ∃ h count, counts.lookup h = some count ∧ m = g.memberPlan p entries plan.inlined h count := by
  constructor
  · intro hm
    obtain ⟨⟨name, m'⟩, hx, rfl⟩ := List.mem_map.1 hm
    obtain ⟨h, count, hcount, -, rfl⟩ :=
      (hd.plans.members name m').1 (Dictionary.get?_eq_some_iff.2 hx)
    exact ⟨h, count, hcount, rfl⟩
  · rintro ⟨h, count, hcount, rfl⟩
    have hget := (hd.plans.members (p.tree.memberFullName h) _).2 ⟨h, count, hcount, rfl, rfl⟩
    exact List.mem_map.2 ⟨_, Dictionary.get?_eq_some_iff.1 hget, rfl⟩

theorem eq_memberPlan (hd : plan.Derives p entries g counts) (hm : m ∈ plan.components) :
    m = g.memberPlan p entries plan.inlined m.handle m.instances ∧
      counts.lookup m.handle = some m.instances ∧ m.handle ∈ g.members ∧
      m.handle ∉ plan.inlined := by
  obtain ⟨h, count, hcount, rfl⟩ := hd.mem_components.1 hm
  have hcounted := (hd.plans.counted h).1 (by rw [hcount]; rfl)
  obtain ⟨hmem, hnot⟩ := List.mem_filter.1 hcounted
  refine ⟨rfl, hcount, hmem, ?_⟩
  simpa [CallGraph.memberPlan] using hnot

theorem fullName_eq (hd : plan.Derives p entries g counts) (hm : m ∈ plan.components) :
    m.fullName = p.tree.memberFullName m.handle := by
  rw [(hd.eq_memberPlan hm).1]
  rfl

theorem nodup_handles (hd : plan.Derives p entries g counts) :
    (plan.components.map MemberPlan.handle).Nodup := by
  refine List.Nodup.of_map p.tree.memberFullName ?_
  have hkeys : (plan.components.map MemberPlan.handle).map p.tree.memberFullName =
      plan.members.entries.map Prod.fst := by
    rw [components, List.map_map, List.map_map]
    apply List.map_congr_left
    rintro ⟨name, m⟩ hx
    obtain ⟨h, count, -, rfl, rfl⟩ :=
      (hd.plans.members name m).1 (Dictionary.get?_eq_some_iff.2 hx)
    rfl
  rw [hkeys, List.Nodup, List.pairwise_map]
  refine plan.members.sorted.imp ?_
  intro a b hlt heq
  exact String.lt_irrefl b.1 (heq ▸ hlt)

theorem mem_handles (hd : plan.Derives p entries g counts) {h : MemberHandle} :
    h ∈ plan.components.map MemberPlan.handle ↔ h ∈ g.members ∧ h ∉ plan.inlined := by
  constructor
  · intro hh
    obtain ⟨m, hm, rfl⟩ := List.mem_map.1 hh
    exact (hd.eq_memberPlan hm).2.2
  · rintro ⟨hmem, hnot⟩
    have hcounted := (hd.plans.counted h).2 (List.mem_filter.2 ⟨hmem, by simpa using hnot⟩)
    obtain ⟨count, hcount⟩ := Option.isSome_iff_exists.1 hcounted
    exact List.mem_map.2 ⟨_, hd.mem_components.2 ⟨h, count, hcount, rfl⟩, rfl⟩

theorem follows (hd : plan.Derives p entries g counts) : plan.Follows p g where
  inlined h hh := by
    rw [hd.inlined] at hh
    obtain ⟨hmem, hin⟩ := List.mem_filter.1 hh
    exact ⟨hmem, _, (Bool.and_eq_true_iff.1 hin).2⟩
  names x hx := by
    have hm : x.2 ∈ plan.components := List.mem_map_of_mem hx
    obtain ⟨h, count, -, hname, heq⟩ :=
      (hd.plans.members x.1 x.2).1 (Dictionary.get?_eq_some_iff.2 hx)
    rw [hd.fullName_eq hm, hname, heq]
    exact ⟨rfl, rfl⟩
  members x hx := by
    obtain ⟨hplan, -, hmem, -⟩ := hd.eq_memberPlan (List.mem_map_of_mem hx)
    refine ⟨hmem, ?_⟩
    rw [hplan]
    rfl

theorem slotsFor_eq (hd : plan.Derives p entries g counts) {c : MemberPlan}
    (hm : m ∈ plan.components) (hc : c ∈ plan.components) :
    m.slotsFor c.fullName = p.mostCalls m.handle c.handle := by
  obtain ⟨hplan, -, hmem, -⟩ := hd.eq_memberPlan hm
  obtain ⟨-, -, hmem', hnot⟩ := hd.eq_memberPlan hc
  have hspans := CallGraph.spans_ofEntryPoints hd.graph
  rw [hd.fullName_eq hc, ← CallGraph.getD_invocations hd.ids hd.names hspans hmem
    (hspans.members hmem') hnot, MemberPlan.slotsFor, hplan]
  rfl

theorem demand_eq (hd : plan.Derives p entries g counts) (hm : m ∈ plan.components) :
    plan.demand m = g.exactDemand p entries counts m.handle := by
  obtain ⟨hplan, hcount, hmem, hnot⟩ := hd.eq_memberPlan hm
  have hentry : m.isEntry = entries.contains m.handle := by
    rw [hplan]
    rfl
  let need (k : MemberHandle) : Nat :=
    if k = m.handle then 0 else CallGraph.planned counts k * p.mostCalls k m.handle
  have hneeds : (plan.components.map fun c ↦ if c.handle = m.handle then 0
      else c.instances.toNat * c.slotsFor m.fullName) =
        (plan.components.map MemberPlan.handle).map need := by
    rw [List.map_map]
    apply List.map_congr_left
    intro c hc
    dsimp only [need, Function.comp_apply]
    rw [CallGraph.planned, (hd.eq_memberPlan hc).2.1, hd.slotsFor_eq hc hm]
    rfl
  have hperm : plan.components.map MemberPlan.handle ~
      g.members.filter fun h ↦ !plan.inlined.contains h := by
    have hnodup := (CallGraph.members_sublist hd.graph).nodup (List.Nodup.of_map _ hd.names)
    refine (List.perm_ext_iff_of_nodup hd.nodup_handles (hnodup.filter _)).2 fun h ↦ ?_
    rw [hd.mem_handles, List.mem_filter]
    simp
  have hnone : ∀ k ∈ g.members, (!plan.inlined.contains k) = false → need k = 0 := by
    intro k _ hk
    have hcounts : counts.lookup k = none := by
      rw [← Option.not_isSome_iff_eq_none, hd.plans.counted k, List.mem_filter, hk]
      simp
    dsimp only [need]
    rw [CallGraph.planned, hcounts]
    simp
  rw [demand, CallGraph.exactDemand, hneeds, (hperm.map need).sum_eq, sum_map_filter hnone, hentry]
  simp [need]

theorem selfCalls_pos_iff (hd : plan.Derives p entries g counts) (hm : m ∈ plan.components) :
    0 < g.selfCalls m.handle ↔ p.Calls m.handle m.handle := by
  have hspans := CallGraph.spans_ofEntryPoints hd.graph
  obtain ⟨-, -, hmem, -⟩ := hd.eq_memberPlan hm
  obtain ⟨s, hs⟩ := Option.isSome_iff_exists.1 (CallGraph.mem_members.1 hmem)
  rw [UInt32.lt_iff_toNat_lt, CallGraph.toNat_selfCalls hd.ids hspans hmem]
  constructor
  · intro hpos
    by_contra hcalls
    rw [Program.mostCalls_eq_zero hcalls] at hpos
    exact Nat.lt_irrefl 0 hpos
  · intro hcalls
    exact Program.mostCalls_pos (hspans.summary _ s hs) hcalls

/-- A member that calls itself has the instances of its bound, which has room for its demand. -/
theorem instances_recursive (hd : plan.Derives p entries g counts) (hm : m ∈ plan.components)
    (hcalls : p.Calls m.handle m.handle) :
    ∃ start bound, (InstanceTable.ofConfig p.config).find? m.fullName = some (start, bound) ∧
      bound.isDefault = false ∧ m.instances = bound.max ∧
      CallGraph.saturate ((CallGraph.saturate (plan.demand m)).toNat +
        p.mostCalls m.handle m.handle) ≤ bound.max := by
  obtain ⟨-, hcount, hmem, -⟩ := hd.eq_memberPlan hm
  obtain ⟨t, ht, hallocate⟩ := hd.plans.allocated _ _ hcount
  have hself := CallGraph.toNat_selfCalls hd.ids (CallGraph.spans_ofEntryPoints hd.graph) hmem
  obtain ⟨hdefault, hmax, hle⟩ :=
    (CallGraph.allocate_eq_ok hallocate).1 ((hd.selfCalls_pos_iff hm).2 hcalls)
  rw [hself, ← hd.demand_eq hm] at hle
  rw [← hd.fullName_eq hm] at hdefault hmax hle
  cases hfind : (InstanceTable.ofConfig p.config).find? m.fullName with
  | none =>
    rw [ht.lookup_of_none hfind] at hdefault
    cases hdefault
  | some x =>
    rw [ht.lookup_of_some hfind] at hdefault hmax hle
    exact ⟨x.1, x.2, rfl, hdefault, hmax, hle⟩

/-- Any other member has the instances that are needed, and its bound has room for them. -/
theorem instances_plain (hd : plan.Derives p entries g counts) (hm : m ∈ plan.components)
    (hcalls : ¬ p.Calls m.handle m.handle) :
    m.instances = max (CallGraph.saturate (plan.demand m)) 1 ∧
      ∀ start bound, (InstanceTable.ofConfig p.config).find? m.fullName = some (start, bound) →
        CallGraph.saturate (plan.demand m) ≤ bound.max := by
  obtain ⟨-, hcount, -, -⟩ := hd.eq_memberPlan hm
  obtain ⟨t, ht, hallocate⟩ := hd.plans.allocated _ _ hcount
  obtain ⟨hinstances, hle⟩ :=
    (CallGraph.allocate_eq_ok hallocate).2 fun hpos ↦ hcalls ((hd.selfCalls_pos_iff hm).1 hpos)
  rw [← hd.demand_eq hm] at hinstances hle
  rw [← hd.fullName_eq hm] at hle
  refine ⟨hinstances, fun start bound hfind ↦ ?_⟩
  rw [ht.lookup_of_some hfind] at hle
  exact hle (InstanceTable.isDefault_of_find?_ofConfig hfind)

theorem instances_pos (hd : plan.Derives p entries g counts) (hm : m ∈ plan.components) :
    0 < m.instances.toNat := by
  by_cases hcalls : p.Calls m.handle m.handle
  · obtain ⟨start, bound, -, -, hmax, hle⟩ := hd.instances_recursive hm hcalls
    have hspans := CallGraph.spans_ofEntryPoints hd.graph
    obtain ⟨s, hs⟩ := Option.isSome_iff_exists.1
      (CallGraph.mem_members.1 (hd.eq_memberPlan hm).2.2.1)
    have hpos := Program.mostCalls_pos (hspans.summary _ s hs) hcalls
    rw [hmax]
    exact Nat.lt_of_lt_of_le (CallGraph.toNat_saturate_pos (Nat.add_pos_right _ hpos))
      (UInt32.le_iff_toNat_le.1 hle)
  · rw [(hd.instances_plain hm hcalls).1, toNat_max]
    exact Nat.lt_of_lt_of_le Nat.zero_lt_one (Nat.le_max_right _ _)

theorem demand_pos (hd : plan.Derives p entries g counts) (hm : m ∈ plan.components) :
    0 < plan.demand m := by
  obtain ⟨hplan, -, hmem, -⟩ := hd.eq_memberPlan hm
  by_cases hentry : m.handle ∈ entries
  · have hisEntry : m.isEntry = true := by
      rw [hplan]
      exact List.contains_iff_mem.2 hentry
    rw [demand, if_pos hisEntry]
    exact Nat.add_pos_left Nat.zero_lt_one _
  · obtain ⟨k, hne, hreach, hcalls⟩ :=
      ((CallGraph.mem_members_iff hd.graph).1 hmem).caller hentry
    have hk := (CallGraph.mem_members_iff hd.graph).2 hreach
    have hnot : k ∉ plan.inlined := by
      intro hin
      rw [hd.inlined] at hin
      exact (CallGraph.of_mem_inlined hd.graph hin).2.2.1 _ hcalls
    obtain ⟨c, hc, rfl⟩ := List.mem_map.1 (hd.mem_handles.2 ⟨hk, hnot⟩)
    obtain ⟨s, hs⟩ := Option.isSome_iff_exists.1 (CallGraph.mem_members.1 hk)
    have hpos := Program.mostCalls_pos
      ((CallGraph.spans_ofEntryPoints hd.graph).summary _ s hs) hcalls
    refine Nat.add_pos_right _ (Nat.lt_of_lt_of_le ?_
      (List.single_le_sum (fun _ _ ↦ Nat.zero_le _) _ (List.mem_map_of_mem hc)))
    rw [if_neg hne, hd.slotsFor_eq hc hm]
    exact Nat.mul_pos (hd.instances_pos hc) hpos

end Derives

/-- The plan is what a program needs from the given entry points. -/
structure Exact (plan : CallPlan) (p : Program) (entries : List MemberHandle) : Prop where
  /-- The components are the members that are reached and not expanded, each once. -/
  planned : ∀ h, h ∈ plan.components.map MemberPlan.handle ↔
    p.Reachable entries h ∧ h ∉ plan.inlined
  distinct : (plan.components.map MemberPlan.handle).Nodup
  named : ∀ m ∈ plan.components, m.fullName = p.tree.memberFullName m.handle ∧
    (m.isEntry = true ↔ m.handle ∈ entries)
  expanded : ∀ h ∈ plan.inlined, p.Reachable entries h ∧ (∀ c, ¬ p.Calls h c) ∧ h ∉ entries ∧
    ∀ k, p.Reachable entries k → ¬ p.StartsParallel k h
  slots : ∀ m ∈ plan.components, ∀ name n, m.invocations.get? name = some n ↔
    ∃ c, c ∉ plan.inlined ∧ p.Calls m.handle c ∧ name = p.tree.memberFullName c ∧
      n.toNat = p.mostCalls m.handle c
  plain : ∀ m ∈ plan.components, ¬ p.Calls m.handle m.handle → plan.demand m < 2 ^ 32 →
    m.instances.toNat = max 1 (plan.demand m) ∧
      ∀ start bound, (InstanceTable.ofConfig p.config).find? m.fullName = some (start, bound) →
        m.instances ≤ bound.max
  recursive : ∀ m ∈ plan.components, p.Calls m.handle m.handle →
    plan.demand m + p.mostCalls m.handle m.handle < 2 ^ 32 →
      ∃ start bound, (InstanceTable.ofConfig p.config).find? m.fullName = some (start, bound) ∧
        bound.isDefault = false ∧ m.instances = bound.max ∧
        plan.demand m + p.mostCalls m.handle m.handle ≤ bound.max.toNat

/-- A plan has the components, the slots and the instances that the calls of the program need. -/
theorem exact_ofProgram {types : List TypeDecl} {config : Config} {identity : String}
    (hsize : (SyntaxTree.ofTypes types).ids.length ≤ 2 ^ 32)
    (hp : Program.prepare (.ofTypes types) config identity = .ok p)
    (h : CallPlan.ofProgram p entries = .ok plan) : plan.Exact p entries := by
  obtain ⟨hids, hnames⟩ := Program.distinct_of_prepare hsize hp
  obtain ⟨g, counts, hd⟩ := exists_derives hids hnames h
  have hspans := CallGraph.spans_ofEntryPoints hd.graph
  have hreach {h : MemberHandle} := CallGraph.mem_members_iff hd.graph (h := h)
  refine ⟨fun h ↦ ?_, hd.nodup_handles, fun m hm ↦ ⟨hd.fullName_eq hm, ?_⟩, fun h hh ↦ ?_,
    fun m hm name n ↦ ?_, fun m hm hcalls hlt ↦ ?_, fun m hm hcalls hlt ↦ ?_⟩
  · rw [hd.mem_handles, hreach]
  · rw [(hd.eq_memberPlan hm).1]
    exact List.contains_iff_mem
  · rw [hd.inlined] at hh
    obtain ⟨hmem, hentry, hcalls, hparallel⟩ := CallGraph.of_mem_inlined hd.graph hh
    exact ⟨hreach.1 hmem, hcalls, hentry, fun k hk ↦ hparallel k (hreach.2 hk)⟩
  · obtain ⟨hplan, -, hmem, -⟩ := hd.eq_memberPlan hm
    rw [hplan]
    exact CallGraph.get?_invocations_iff hids hnames hspans hmem
  · obtain ⟨hinstances, hbound⟩ := hd.instances_plain hm hcalls
    have hone : (1 : UInt32) ≤ CallGraph.saturate (plan.demand m) :=
      UInt32.le_iff_toNat_le.2 (CallGraph.toNat_saturate_pos (hd.demand_pos hm))
    refine ⟨?_, fun start bound hfind ↦ ?_⟩
    · rw [hinstances, toNat_max, CallGraph.toNat_saturate hlt, Nat.max_comm]
      rfl
    · have heq : m.instances = CallGraph.saturate (plan.demand m) := by
        rw [hinstances, ← UInt32.toNat_inj, toNat_max]
        exact Nat.max_eq_left (UInt32.le_iff_toNat_le.1 hone)
      rw [heq]
      exact hbound start bound hfind
  · obtain ⟨start, bound, hfind, hdefault, hmax, hle⟩ := hd.instances_recursive hm hcalls
    rw [CallGraph.toNat_saturate (Nat.lt_of_le_of_lt (Nat.le_add_right _ _) hlt),
      UInt32.le_iff_toNat_le, CallGraph.toNat_saturate hlt] at hle
    exact ⟨start, bound, hfind, hdefault, hmax, hle⟩

end CallPlan

/-- An entry point that calls a second member twice at the same time, which does so with a third one,
and a member that calls itself. The last member is expanded. -/
def sharedCalls : List TypeDecl :=
  let number : TypeRef := .int 32 true
  let call (name : String) : Expr := .call 0 ⟨"Work", name, [number]⟩ [.literal 0 (.i32 7)]
  let twice (name : String) : Expr := .binary 0 .add (call name) (call name)
  let member (name : String) (hint : Bool) (e : Expr) : MethodDecl :=
    { name := name
      modifiers := { visibility := .pub, isVirtual := decide (name = "Main"), inlineHint := hint }
      parameters := [⟨"x", number⟩], returnType := number, body := some (.ret 0 (some e)) }
  [{ fullName := "Work"
     visibility := .pub
     methods :=
      [member "Main" false (.binary 0 .add (twice "Half") (.binary 0 .add (call "Down") (call "Same"))),
       member "Half" false (twice "Leaf"), member "Leaf" false (.getParameter 0 "x"),
       member "Down" false (call "Down"), member "Same" true (.getParameter 0 "x")] }]

theorem exact_sharedCalls : ∃ p plan,
    Program.prepare (.ofTypes sharedCalls)
      { device := "Zynq-7020", instanceBounds := [⟨"Work.D", 5⟩] } "" = .ok p ∧
    CallPlan.ofProgram p [⟨0, 0⟩] = .ok plan ∧
    plan.components.map (fun m ↦ (m.handle, m.instances)) =
      [(⟨0, 3⟩, 5), (⟨0, 1⟩, 2), (⟨0, 2⟩, 4), (⟨0, 0⟩, 1)] ∧
    plan.inlined = [⟨0, 4⟩] ∧ plan.Exact p [⟨0, 0⟩] := by
  have hsize : (SyntaxTree.ofTypes sharedCalls).ids.length ≤ 2 ^ 32 := by decide +kernel
  have hcheck : Synthesis.check (do
      let p ← Program.prepare (.ofTypes sharedCalls)
        { device := "Zynq-7020", instanceBounds := [⟨"Work.D", 5⟩] } ""
      return (p, ← CallPlan.ofProgram p [⟨0, 0⟩])) (fun x ↦
        x.2.components.map (fun m ↦ (m.handle, m.instances)) =
          [(⟨0, 3⟩, 5), (⟨0, 1⟩, 2), (⟨0, 2⟩, 4), (⟨0, 0⟩, 1)] ∧
        x.2.inlined = [⟨0, 4⟩]) = true := by decide +kernel
  obtain ⟨⟨p, plan⟩, hpair, hcheck⟩ := Synthesis.check_eq_true.1 hcheck
  obtain ⟨p', hp, hpair⟩ := Synthesis.bind_eq_ok.1 hpair
  obtain ⟨plan', hplan, hpair⟩ := Synthesis.bind_eq_ok.1 hpair
  obtain ⟨rfl, rfl⟩ := Prod.mk.inj (Except.ok.inj hpair)
  obtain ⟨hcomponents, hinlined⟩ := of_decide_eq_true hcheck
  exact ⟨p', plan', hp, hplan, hcomponents, hinlined, CallPlan.exact_ofProgram hsize hp hplan⟩

end Fabric
