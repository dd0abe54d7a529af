import Fabric.Proofs.Calls.Plan
import Fabric.Proofs.Calls.Reachable

namespace Fabric

open Synthesis

namespace Stmt

def callsTo (t : SyntaxTree) (c : MemberHandle) : Stmt → Nat
  | .parallel _ count _ call _ =>
    if call.calls t c then (count.copies.map UInt32.toNat).getD 0 else 0
  | s => s.ownNodes.countP (Expr.calls t c)

def mostCallsTo (t : SyntaxTree) (c : MemberHandle) (body : Stmt) : Nat :=
  (body.nodes.map (callsTo t c)).foldl max 0

theorem callsTo_of_sequential (t : SyntaxTree) (c : MemberHandle) {s : Stmt}
    (hs : s.isParallel = false) : s.callsTo t c = s.ownNodes.countP (Expr.calls t c) := by
  cases s with
  | parallel => cases hs
  | _ => rfl

end Stmt

/-- The largest number of calls to a member that a statement of another one makes at the same
time. -/
def Program.mostCalls (p : Program) (h c : MemberHandle) : Nat :=
  ((p.tree.method h).body.map (Stmt.mostCallsTo p.tree c)).getD 0

def Program.StartsParallel (p : Program) (h c : MemberHandle) : Prop :=
  ∃ body, (p.tree.method h).body = some body ∧ ∃ id count index call results,
    .parallel id count index call results ∈ body.nodes ∧ call.calls p.tree c

theorem foldl_max_le_iff {as : List Nat} {b n : Nat} :
    as.foldl max b ≤ n ↔ b ≤ n ∧ ∀ a ∈ as, a ≤ n := by
  induction as generalizing b with
  | nil => simp
  | cons a as ih =>
    rw [List.foldl_cons, ih, Nat.max_le, List.forall_mem_cons, and_assoc]

theorem toNat_max (b c : UInt32) : (max b c).toNat = max b.toNat c.toNat := by
  have heq : max b c = if b ≤ c then c else b := rfl
  rw [heq]
  split
  next hle => exact (Nat.max_eq_right (UInt32.le_iff_toNat_le.1 hle)).symm
  next hle => exact (Nat.max_eq_left (UInt32.le_iff_toNat_le.1
    (UInt32.le_of_lt (UInt32.not_le.1 hle)))).symm

theorem toNat_foldl_max (as : List UInt32) (b : UInt32) :
    (as.foldl max b).toNat = (as.map UInt32.toNat).foldl max b.toNat := by
  induction as generalizing b with
  | nil => rfl
  | cons a as ih => rw [List.foldl_cons, ih, toNat_max, List.map_cons, List.foldl_cons]

theorem lookup_map_pair (cs : List MemberHandle) (f : MemberHandle → UInt32) (c : MemberHandle) :
    (cs.map fun c ↦ (c, f c)).lookup c = if c ∈ cs then some (f c) else none := by
  induction cs with
  | nil => rfl
  | cons k cs ih =>
    rw [List.map_cons, List.lookup_cons]
    by_cases hk : c = k
    · simp [hk]
    · simp [beq_false_of_ne hk, ih, hk]

namespace Program

variable {p : Program} {member : String} {nodes : List Stmt} {sites : List (List CallSite)}

theorem groupSize_callsTo
    (hsites : List.Forall₂ (fun t x ↦
      p.stmtSites member (ParentIndex.ofTree p.tree) t = .ok x) nodes sites)
    (hgroup : ∀ t ∈ nodes, ∀ c ∈ t.ownNodes, c.isCall → p.callGroup c.id = some t.id)
    (hn : (nodes.map Stmt.id).Nodup) {t : Stmt} (ht : t ∈ nodes)
    (hlen : t.ownNodes.length < 2 ^ 32) (c : MemberHandle) :
    (groupSize sites.flatten t.id c).toNat = t.callsTo p.tree c := by
  by_cases hs : t.isParallel = false
  · rw [groupSize_eq hsites hgroup hn ht hs hlen, Stmt.callsTo_of_sequential _ _ hs]
  · cases t with
    | parallel id count index call results =>
      have hxs := filter_group hsites hgroup hn ht
      obtain ⟨copies, callId, target, args, k, hcount, rfl, -, hresolve, hone⟩ :=
        stmtSites_parallel hxs
      rw [groupSize, filter_and, Stmt.id] at *
      rw [hone]
      by_cases hk : k = c
      · simp [Stmt.callsTo, Expr.calls, hresolve, hk, hcount]
      · simp [Stmt.callsTo, Expr.calls, hresolve, hk]
    | _ => exact absurd rfl hs

theorem toNat_largestGroup
    (hsites : List.Forall₂ (fun t x ↦
      p.stmtSites member (ParentIndex.ofTree p.tree) t = .ok x) nodes sites)
    (hgroup : ∀ t ∈ nodes, ∀ c ∈ t.ownNodes, c.isCall → p.callGroup c.id = some t.id)
    (hn : (nodes.map Stmt.id).Nodup) (hlen : ∀ t ∈ nodes, t.ownNodes.length < 2 ^ 32)
    (c : MemberHandle) :
    (largestGroup sites.flatten c).toNat = (nodes.map (Stmt.callsTo p.tree c)).foldl max 0 := by
  have hsize {t : Stmt} (ht : t ∈ nodes) :=
    groupSize_callsTo hsites hgroup hn ht (hlen t ht) c
  rw [largestGroup, toNat_foldl_max, List.map_map]
  refine eq_of_forall_ge_iff fun n ↦ ?_
  rw [foldl_max_le_iff, foldl_max_le_iff]
  refine and_congr_right fun _ ↦ ⟨fun h ↦ ?_, fun h ↦ ?_⟩
  · rw [List.forall_mem_map] at h ⊢
    intro t ht
    rw [← hsize ht]
    by_cases hgroups : ∃ x ∈ sites.flatten, x.group = t.id
    · obtain ⟨x, hx, hxt⟩ := hgroups
      rw [← hxt]
      exact h x hx
    · have hnil : (sites.flatten.filter fun x ↦ x.group = t.id) = [] :=
        List.filter_eq_nil_iff.2 fun x hx hdec ↦ hgroups ⟨x, hx, of_decide_eq_true hdec⟩
      rw [groupSize, filter_and, hnil]
      exact Nat.zero_le n
  · rw [List.forall_mem_map] at h ⊢
    intro x hx
    obtain ⟨xs, hxs, hx⟩ := List.mem_flatten.1 hx
    obtain ⟨t, ht, hsites'⟩ := exists_of_mem_forall₂ hsites hxs
    have hxt := (group_of_stmtSites (hgroup t ht) hsites').1 x hx
    rw [Function.comp_apply, hxt, hsize ht]
    exact h t ht

/-- The slots that the summary of a member gives are the most calls that a statement of it makes. -/
theorem slots?_eq (hids : p.tree.ids.Nodup) {h c : MemberHandle} {s : CallSummary}
    (hs : p.callSummary (ParentIndex.ofTree p.tree) h = .ok s) {n : UInt32} :
    s.slots? c = some n ↔ p.Calls h c ∧ n.toNat = p.mostCalls h c := by
  obtain ⟨body, sites, hbody, hsites, hcallees, -⟩ := callSummary_eq hs
  have hhandle := Lowering.mem_handles_of_body hbody
  have hgrouped : body.Grouped p := Program.callsGrouped hids _ hhandle body hbody
  have hbodyIds : body.ids.Nodup := (SyntaxTree.ids_sublist hhandle hbody).nodup hids
  have hlargest (c : MemberHandle) : (largestGroup sites.flatten c).toNat = p.mostCalls h c := by
    rw [mostCalls, hbody, Option.map_some, Option.getD_some, Stmt.mostCallsTo]
    exact toNat_largestGroup hsites hgrouped.own (body.map_id_sublist.nodup hbodyIds)
      (fun t ht ↦ Stmt.length_ownNodes_lt hbodyIds ht) c
  have hmem := mem_callees_iff hs (c := c)
  rw [hcallees, List.map_map] at hmem
  have hmap : (p.tree.handles.filter fun c ↦ sites.flatten.any fun x ↦ x.callee = c).map
      (Prod.fst ∘ fun c ↦ (c, largestGroup sites.flatten c)) =
        p.tree.handles.filter fun c ↦ sites.flatten.any fun x ↦ x.callee = c :=
    List.map_id _
  rw [hmap] at hmem
  rw [CallSummary.slots?, hcallees, lookup_map_pair, ← hlargest c]
  by_cases hc : p.Calls h c
  · rw [if_pos (hmem.2 hc), Option.some_inj, UInt32.toNat_inj, eq_comm]
    exact (and_iff_right hc).symm
  · rw [if_neg fun h ↦ hc (hmem.1 h)]
    exact ⟨nofun, fun h ↦ absurd h.1 hc⟩

theorem mem_callees_iff_slots? {parents : ParentIndex} {h c : MemberHandle} {s : CallSummary}
    (hs : p.callSummary parents h = .ok s) {n : UInt32} :
    (c, n) ∈ s.callees ↔ s.slots? c = some n := by
  obtain ⟨body, sites, -, -, hcallees, -⟩ := callSummary_eq hs
  rw [CallSummary.slots?, hcallees, lookup_map_pair]
  constructor
  · intro hmem
    obtain ⟨k, hk, heq⟩ := List.mem_map.1 hmem
    obtain ⟨rfl, rfl⟩ := Prod.mk.inj heq
    rw [if_pos hk]
  · intro heq
    split at heq
    next hc =>
      rw [← Option.some.inj heq]
      exact List.mem_map_of_mem hc
    next => cases heq

theorem StartsParallel.mem_parallel {h c : MemberHandle} {s : CallSummary}
    (hstarts : p.StartsParallel h c)
    (hs : p.callSummary (ParentIndex.ofTree p.tree) h = .ok s) : c ∈ s.parallel := by
  obtain ⟨body, hbody, id, count, index, call, results, ht, hcalls⟩ := hstarts
  obtain ⟨body', sites, hbody', hsites, -, hparallel⟩ := callSummary_eq hs
  obtain rfl := Option.some.inj (hbody.symm.trans hbody')
  obtain ⟨xs, hxs, hx⟩ := exists_of_mem_forall₂ hsites.flip ht
  obtain ⟨copies, callId, target, args, k, -, rfl, -, hresolve, rfl⟩ := stmtSites_parallel hx
  have hk : k = c := Option.some.inj (hresolve.symm.trans (of_decide_eq_true hcalls))
  rw [hparallel, ← hk]
  exact List.mem_map.2 ⟨_, List.mem_filter.2
    ⟨List.mem_flatten.2 ⟨_, hxs, List.mem_singleton_self _⟩, rfl⟩, rfl⟩

/-- A member that does not call another one has no statement that calls it. -/
theorem mostCalls_eq_zero {h c : MemberHandle} (hc : ¬ p.Calls h c) : p.mostCalls h c = 0 := by
  unfold mostCalls
  cases hbody : (p.tree.method h).body with
  | none => rfl
  | some body =>
    have hnone (t : Stmt) (ht : t ∈ body.nodes) (e : Expr) (he : e ∈ t.ownNodes) :
        e.calls p.tree c = false := by
      rw [← Bool.not_eq_true]
      intro hcalls
      exact hc ⟨body, hbody, e, List.mem_flatMap.2 ⟨t, ht, he⟩, hcalls⟩
    rw [Option.map_some, Option.getD_some, Stmt.mostCallsTo, ← Nat.le_zero, foldl_max_le_iff]
    refine ⟨Nat.le_refl 0, List.forall_mem_map.2 fun t ht ↦ Nat.le_of_eq ?_⟩
    by_cases hsequential : t.isParallel = false
    · rw [Stmt.callsTo_of_sequential _ _ hsequential, List.countP_eq_zero]
      intro e he
      rw [hnone t ht e he]
      exact Bool.false_ne_true
    · cases t with
      | parallel id count index call results =>
        have hcall : call ∈ (Stmt.parallel id count index call results).ownNodes :=
          List.mem_flatMap.2 ⟨call, by simp [Stmt.exprs], call.mem_nodes_self⟩
        rw [Stmt.callsTo, hnone _ ht call hcall, if_neg Bool.false_ne_true]
      | _ => exact absurd rfl hsequential

theorem mostCalls_pos {h c : MemberHandle} {s : CallSummary}
    (hs : p.callSummary (ParentIndex.ofTree p.tree) h = .ok s) (hc : p.Calls h c) :
    0 < p.mostCalls h c := by
  obtain ⟨body, sites, hbody, hsites, -, -⟩ := callSummary_eq hs
  obtain ⟨body', hbody', e, he, hcalls⟩ := hc
  obtain rfl := Option.some.inj (hbody.symm.trans hbody')
  obtain ⟨t, ht, he⟩ := List.mem_flatMap.1 he
  have hpos : 0 < t.callsTo p.tree c := by
    by_cases hsequential : t.isParallel = false
    · rw [Stmt.callsTo_of_sequential _ _ hsequential]
      exact List.countP_pos_iff.2 ⟨e, he, hcalls⟩
    · cases t with
      | parallel id count index call results =>
        obtain ⟨xs, -, hxs⟩ := exists_of_mem_forall₂ hsites.flip ht
        obtain ⟨copies, callId, target, args, k, hcount, rfl, hargs, -, -⟩ := stmtSites_parallel hxs
        have hresolve := (calls_parallel hcount hargs c).1 ⟨e, he, hcalls⟩
        simpa [Stmt.callsTo, Expr.calls, hresolve, hcount, Nat.pos_iff_ne_zero]
          using Lowering.ne_zero_of_copies hcount
      | _ => exact absurd rfl hsequential
  rw [mostCalls, hbody, Option.map_some, Option.getD_some, Stmt.mostCallsTo]
  exact Nat.lt_of_lt_of_le hpos
    ((foldl_max_le_iff.1 (Nat.le_refl _)).2 _ (List.mem_map_of_mem ht))

end Program

end Fabric
