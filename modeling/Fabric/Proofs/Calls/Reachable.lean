import Fabric.Proofs.Calls.Slots
import Fabric.Proofs.Construction.Member

namespace Fabric

open Synthesis

namespace Program

def Calls (p : Program) (h c : MemberHandle) : Prop :=
  ∃ body, (p.tree.method h).body = some body ∧ ∃ e ∈ body.exprNodes, e.calls p.tree c

/-- There is a chain of calls from one member to another one. -/
def CallsOn (p : Program) : MemberHandle → MemberHandle → Prop :=
  Relation.ReflTransGen p.Calls

/-- There is a chain of calls from an entry point to the member. -/
def Reachable (p : Program) (entries : List MemberHandle) (h : MemberHandle) : Prop :=
  ∃ e ∈ entries, p.CallsOn e h

variable {p : Program} {member : String} {entries : List MemberHandle}

/-- A member that is reached and is no entry point is called by another one. -/
theorem Reachable.caller {h : MemberHandle} (hh : p.Reachable entries h) (hentry : h ∉ entries) :
    ∃ k, k ≠ h ∧ p.Reachable entries k ∧ p.Calls k h := by
  obtain ⟨e, he, hlead⟩ := hh
  induction hlead with
  | refl => exact absurd he hentry
  | @tail b h hlead hcall ih =>
    by_cases hb : b = h
    · subst hb
      exact ih hentry
    · exact ⟨b, hb, ⟨e, he, hlead⟩, hcall⟩

theorem callee_exprSite {group : NodeId} {e : Expr} {sites : List CallSite}
    (h : p.exprSite member (ParentIndex.ofTree p.tree) group e = .ok sites) (c : MemberHandle) :
    (∃ x ∈ sites, x.callee = c) ↔ e.calls p.tree c := by
  cases e with
  | call id target args =>
    obtain ⟨k, hk, h⟩ := Synthesis.bind_eq_ok.1 h
    obtain rfl := Except.ok.inj h
    have hresolve := (meets_resolveCallee member target).1 k hk
    simp [Expr.calls, hresolve]
  | _ =>
    obtain rfl := Except.ok.inj h
    simp [Expr.calls]

theorem asLiteral_of_copies {e : Expr} {n : UInt32} (h : e.copies = some n) :
    ∃ id value, e = .literal id value := by
  cases e with
  | literal id value => exact ⟨id, value, rfl⟩
  | _ => cases h

theorem calls_parallel {id : NodeId} {count : Expr} {index : String} {results : Option String}
    {copies : UInt32} {callId : NodeId} {target : MemberRef} {args : List Expr}
    (hcount : count.copies = some copies) (hargs : ∀ a ∈ args, a.containsCall = false)
    (c : MemberHandle) :
    (∃ e ∈ (Stmt.parallel id count index (.call callId target args) results).ownNodes,
      e.calls p.tree c) ↔ p.tree.resolveCall target = some c := by
  obtain ⟨literalId, value, rfl⟩ := asLiteral_of_copies hcount
  have hnone : ¬ ∃ e ∈ args.flatMap Expr.nodes, e.calls p.tree c := by
    rintro ⟨e, he, hcalls⟩
    obtain ⟨a, ha, he⟩ := List.mem_flatMap.1 he
    have hcall := List.any_eq_false.1 (hargs a ha) e he
    cases e with
    | call => exact hcall rfl
    | _ => cases hcalls
  have hnodes : (Stmt.parallel id (.literal literalId value) index (.call callId target args)
      results).ownNodes =
        .literal literalId value :: .call callId target args :: args.flatMap Expr.nodes := by
    simp [Stmt.ownNodes, Stmt.exprs, Expr.nodes, Expr.nodesList_eq]
  constructor
  · rintro ⟨e, he, hcalls⟩
    rw [hnodes] at he
    rcases List.mem_cons.1 he with rfl | he
    · cases hcalls
    · rcases List.mem_cons.1 he with rfl | he
      · exact of_decide_eq_true hcalls
      · exact absurd ⟨e, he, hcalls⟩ hnone
  · intro hresolve
    rw [hnodes]
    exact ⟨_, List.mem_cons_of_mem _ List.mem_cons_self, decide_eq_true hresolve⟩

/-- The callees that are found in a statement are those of the calls in it. -/
theorem callee_stmtSites {s : Stmt} {sites : List CallSite}
    (h : p.stmtSites member (ParentIndex.ofTree p.tree) s = .ok sites) (c : MemberHandle) :
    (∃ x ∈ sites, x.callee = c) ↔ ∃ e ∈ s.ownNodes, e.calls p.tree c := by
  have hexprs {es : List Expr} {lists : List (List CallSite)}
      (h : List.Forall₂ (fun e x ↦
        p.exprSite member (ParentIndex.ofTree p.tree) s.id e = .ok x) es lists) :
      (∃ x ∈ lists.flatten, x.callee = c) ↔ ∃ e ∈ es, e.calls p.tree c := by
    induction h with
    | nil => simp
    | @cons e xs es lists he _ ih =>
      rw [List.flatten_cons, List.exists_mem_cons_iff, ← ih, ← callee_exprSite he c]
      simp only [List.mem_append, or_and_right, exists_or]
  have hplain (h : (do
      let sites ← s.ownNodes.mapM (p.exprSite member (ParentIndex.ofTree p.tree) s.id)
      return sites.flatten : Synthesis (List CallSite)) = .ok sites) :
      (∃ x ∈ sites, x.callee = c) ↔ ∃ e ∈ s.ownNodes, e.calls p.tree c := by
    obtain ⟨lists, hlists, heq⟩ := Synthesis.bind_eq_ok.1 h
    obtain rfl := Except.ok.inj heq
    exact hexprs ((Meets.mapM fun e _ ↦ (meets_exprSite member s.id e).eq_ok).1 lists hlists)
  cases s with
  | parallel id count index call results =>
    obtain ⟨copies, callId, target, args, k, hcount, rfl, hargs, hresolve, rfl⟩ :=
      stmtSites_parallel h
    rw [calls_parallel hcount hargs, hresolve]
    simp
  | _ => exact hplain h

theorem mem_callees_iff {h c : MemberHandle} {s : CallSummary}
    (hs : p.callSummary (ParentIndex.ofTree p.tree) h = .ok s) :
    c ∈ s.callees.map Prod.fst ↔ p.Calls h c := by
  obtain ⟨body, sites, hbody, hsites, hcallees, -⟩ := callSummary_eq hs
  have hfound {nodes : List Stmt} {sites : List (List CallSite)}
      (hsites : List.Forall₂ (fun t x ↦ p.stmtSites (p.tree.memberFullName h)
        (ParentIndex.ofTree p.tree) t = .ok x) nodes sites) :
      (∃ x ∈ sites.flatten, x.callee = c) ↔
        ∃ e ∈ nodes.flatMap Stmt.ownNodes, e.calls p.tree c := by
    induction hsites with
    | nil => simp
    | @cons t xs nodes sites ht _ ih =>
      rw [List.flatten_cons, List.flatMap_cons]
      simp only [List.mem_append, or_and_right, exists_or]
      rw [ih, callee_stmtSites ht c]
  have hcalls : p.Calls h c ↔ ∃ x ∈ sites.flatten, x.callee = c := by
    rw [hfound hsites]
    constructor
    · rintro ⟨body', hbody', e, he, hcalls⟩
      obtain rfl := Option.some.inj (hbody.symm.trans hbody')
      exact ⟨e, he, hcalls⟩
    · rintro ⟨e, he, hcalls⟩
      exact ⟨body, hbody, e, he, hcalls⟩
  rw [hcalls, hcallees, List.map_map, List.mem_map]
  constructor
  · rintro ⟨k, hk, rfl⟩
    obtain ⟨x, hx, heq⟩ := List.any_eq_true.1 (List.mem_filter.1 hk).2
    exact ⟨x, hx, of_decide_eq_true heq⟩
  · rintro ⟨x, hx, hxc⟩
    obtain ⟨body', hbody', e, -, he⟩ := hcalls.2 ⟨x, hx, hxc⟩
    have hhandle : c ∈ p.tree.handles := by
      cases e with
      | call id target args =>
        exact SyntaxTree.mem_handles_of_resolveCall (of_decide_eq_true he)
      | _ => cases he
    exact ⟨c, List.mem_filter.2 ⟨hhandle, List.any_eq_true.2 ⟨x, hx, decide_eq_true hxc⟩⟩, rfl⟩

theorem callsOn_of_collectCalls {depth : Nat} {found found' : List (MemberHandle × CallSummary)}
    {h : MemberHandle}
    (hfound : p.collectCalls (ParentIndex.ofTree p.tree) depth found h = .ok found')
    {k : MemberHandle} (hk : (found'.lookup k).isSome) :
    (found.lookup k).isSome ∨ p.CallsOn h k := by
  induction depth generalizing found found' h with
  | zero =>
    obtain rfl := Except.ok.inj hfound
    exact .inl hk
  | succ depth ih =>
    unfold collectCalls at hfound
    split at hfound
    · obtain rfl := Except.ok.inj hfound
      exact .inl hk
    · obtain ⟨summary, hsummary, hfold⟩ := Synthesis.bind_eq_ok.1 hfound
      have hsteps {cs : List (MemberHandle × UInt32)} {found : List (MemberHandle × CallSummary)}
          (hcs : ∀ c ∈ cs, p.Calls h c.1)
          (hfold : cs.foldlM (fun found c ↦ p.collectCalls (ParentIndex.ofTree p.tree) depth found
            c.1) found = .ok found') :
          (found.lookup k).isSome ∨ p.CallsOn h k := by
        induction cs generalizing found with
        | nil =>
          obtain rfl := Except.ok.inj hfold
          exact .inl hk
        | cons c cs ihcs =>
          obtain ⟨hc, hcs⟩ := List.forall_mem_cons.1 hcs
          rw [List.foldlM_cons] at hfold
          obtain ⟨found₁, hfound₁, hfold⟩ := Synthesis.bind_eq_ok.1 hfold
          rcases ihcs hcs hfold with hk₁ | hon
          · exact (ih hfound₁ hk₁).imp id (.head hc)
          · exact .inr hon
      have hcallees : ∀ c ∈ summary.callees.reverse, p.Calls h c.1 := fun c hc ↦
        (mem_callees_iff hsummary).1 (List.mem_map_of_mem (List.mem_reverse.1 hc))
      rcases hsteps hcallees hfold with hk | hon
      · rw [List.lookup_cons] at hk
        split at hk
        next heq => exact .inr (eq_of_beq heq ▸ .refl)
        next => exact .inl hk
      · exact .inr hon

end Program

namespace CallGraph

variable {g : CallGraph} {p : Program} {entries : List MemberHandle}

theorem entries_subset_handles (hg : CallGraph.ofEntryPoints p entries = .ok g) :
    entries ⊆ p.tree.handles := by
  have hstep {hs : List MemberHandle} {found found' : List (MemberHandle × CallSummary)}
      (hf : Found p found)
      (hfold : hs.foldlM (p.collectCalls (ParentIndex.ofTree p.tree) (p.tree.memberCount + 1))
        found = .ok found') : hs ⊆ p.tree.handles := by
    induction hs generalizing found with
    | nil => exact List.nil_subset _
    | cons h hs ih =>
      rw [List.foldlM_cons] at hfold
      obtain ⟨found₁, hfound₁, hfold⟩ := Synthesis.bind_eq_ok.1 hfold
      have hh : h ∈ p.tree.handles := by
        have hfound₁ := hfound₁
        unfold Program.collectCalls at hfound₁
        split at hfound₁
        next hsome =>
          obtain ⟨s, hs⟩ := Option.isSome_iff_exists.1 hsome
          exact (hf h s hs).1
        next =>
          obtain ⟨summary, hsummary, -⟩ := Synthesis.bind_eq_ok.1 hfound₁
          obtain ⟨body, -, hbody, -⟩ := Program.callSummary_eq hsummary
          exact Lowering.mem_handles_of_body hbody
      have hdepth : p.unfound found < p.tree.memberCount + 1 :=
        Nat.lt_succ_of_le List.countP_le_length
      have hf₁ := ((Program.meets_collectCalls hh hf hdepth).1 found₁ hfound₁).1
      exact List.cons_subset.2 ⟨hh, ih hf₁ hfold⟩
  have hempty : Found p [] := by
    intro h s hs
    cases hs
  obtain ⟨found, hfound, -⟩ := Synthesis.bind_eq_ok.1 hg
  exact List.reverse_subset.1 (hstep hempty hfound)

theorem spans_ofEntryPoints (hg : CallGraph.ofEntryPoints p entries = .ok g) :
    g.Spans p entries :=
  (meets_ofEntryPoints (entries_subset_handles hg)).1 g hg

theorem mem_callees_iff (hg : g.Spans p entries) {h c : MemberHandle} (hh : h ∈ g.members) :
    c ∈ g.callees h ↔ p.Calls h c := by
  obtain ⟨s, hs⟩ := Option.isSome_iff_exists.1 (mem_members.1 hh)
  unfold callees
  rw [hs]
  exact Program.mem_callees_iff (hg.summary h s hs)

theorem leads_iff (hg : g.Spans p entries) {a b : MemberHandle} (ha : a ∈ g.members) :
    Leads g.callees a b ↔ p.CallsOn a b := by
  have hclosed : Closed g.callees g.members := fun h _ ↦ hg.closed h
  constructor
  · intro hab
    induction hab with
    | refl => exact .refl
    | tail hab hbc ih => exact ih.tail ((mem_callees_iff hg (hclosed.leads hab ha)).1 hbc)
  · intro hab
    induction hab with
    | refl => exact .refl
    | tail _ hbc ih => exact ih.tail ((mem_callees_iff hg (hclosed.leads ih ha)).2 hbc)

theorem mem_members_iff (hg : CallGraph.ofEntryPoints p entries = .ok g) {h : MemberHandle} :
    h ∈ g.members ↔ p.Reachable entries h := by
  have hspans := spans_ofEntryPoints hg
  constructor
  · intro hh
    have hstep {hs : List MemberHandle} {found found' : List (MemberHandle × CallSummary)}
        (hfold : hs.foldlM (p.collectCalls (ParentIndex.ofTree p.tree) (p.tree.memberCount + 1))
          found = .ok found') (hk : (found'.lookup h).isSome) :
        (found.lookup h).isSome ∨ p.Reachable hs h := by
      induction hs generalizing found with
      | nil =>
        obtain rfl := Except.ok.inj hfold
        exact .inl hk
      | cons e hs ih =>
        rw [List.foldlM_cons] at hfold
        obtain ⟨found₁, hfound₁, hfold⟩ := Synthesis.bind_eq_ok.1 hfold
        rcases ih hfold with hk₁ | ⟨k, hk, hon⟩
        · exact (Program.callsOn_of_collectCalls hfound₁ hk₁).imp id fun hon ↦
            ⟨e, List.mem_cons_self, hon⟩
        · exact .inr ⟨k, List.mem_cons_of_mem _ hk, hon⟩
    obtain ⟨found, hfound, heq⟩ := Synthesis.bind_eq_ok.1 hg
    obtain rfl := Except.ok.inj heq
    have hk : (found.lookup h).isSome := by
      rw [mem_members, summary?, lookup_filterMap] at hh
      split at hh
      · exact hh
      · cases hh
    rcases hstep hfound hk with hnil | ⟨e, he, hon⟩
    · cases hnil
    · exact ⟨e, List.mem_reverse.1 he, hon⟩
  · rintro ⟨e, he, hon⟩
    have hclosed : Closed g.callees g.members := fun h _ ↦ hspans.closed h
    exact hclosed.leads ((leads_iff hspans (hspans.entries he)).2 hon) (hspans.entries he)

end CallGraph

end Fabric
