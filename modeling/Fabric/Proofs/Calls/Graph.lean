import Fabric.Proofs.Calls.Search
import Fabric.Proofs.Synthesis.Consistent
import Fabric.Proofs.Synthesis.Planned

namespace Fabric

open Synthesis

namespace Program

variable {p : Program} {parents : ParentIndex}

theorem meets_resolveCallee (member : String) (target : MemberRef) :
    (p.resolveCallee member target).Meets fun c ↦ p.tree.resolveCall target = some c := by
  unfold resolveCallee
  cases p.tree.resolveCall target with
  | some c => exact meets_ok rfl
  | none => exact meets_refused _ _

theorem meets_exprSite (member : String) (statement : NodeId) (e : Expr) :
    (p.exprSite member parents statement e).Meets fun _ ↦ True := by
  cases e with
  | call id target args =>
    refine (meets_resolveCallee member target).bind ?_
    intro c _
    exact meets_ok trivial
  | _ => exact meets_ok trivial

theorem meets_stmtSites (member : String) (s : Stmt) :
    (p.stmtSites member parents s).Meets fun _ ↦ True := by
  have hplain (s : Stmt) :
      (do
        let sites ← (s.exprs.flatMap Expr.nodes).mapM (p.exprSite member parents s.id)
        return sites.flatten : Synthesis (List CallSite)).Meets fun _ ↦ True := by
    refine (Meets.mapM fun e _ ↦ meets_exprSite member s.id e).bind ?_
    intro sites _
    exact meets_ok trivial
  cases s with
  | parallel id count index call results =>
    rw [stmtSites]
    cases hcount : count.copies with
    | none => exact meets_refused _ _
    | some copies =>
      cases call with
      | call callId target args =>
        dsimp only
        split
        · exact meets_refused _ _
        · refine Meets.bind (meets_resolveCallee member target) ?_
          intro c _
          exact meets_ok trivial
      | _ => exact meets_refused _ _
  | _ => exact hplain _

theorem meets_callSummary (h : MemberHandle) :
    (p.callSummary parents h).Meets fun _ ↦ True := by
  unfold callSummary
  cases (p.tree.method h).body with
  | none => exact meets_refused _ _
  | some body =>
    refine (Meets.mapM fun s _ ↦ meets_stmtSites _ s).bind ?_
    intro sites _
    exact meets_ok trivial

/-- What the summary of a member is made from. -/
theorem callSummary_eq {h : MemberHandle} {s : CallSummary} (hs : p.callSummary parents h = .ok s) :
    ∃ body sites, (p.tree.method h).body = some body ∧
      List.Forall₂ (fun t x ↦ p.stmtSites (p.tree.memberFullName h) parents t = .ok x)
        body.nodes sites ∧
      s.callees = (p.tree.handles.filter fun c ↦ sites.flatten.any fun x ↦ x.callee = c).map
        (fun c ↦ (c, largestGroup sites.flatten c)) ∧
      s.parallel = (sites.flatten.filter CallSite.isParallel).map CallSite.callee := by
  unfold callSummary at hs
  cases hbody : (p.tree.method h).body with
  | none =>
    rw [hbody] at hs
    cases hs
  | some body =>
    rw [hbody] at hs
    obtain ⟨sites, hsites, hs⟩ := Synthesis.bind_eq_ok.1 hs
    obtain rfl := Except.ok.inj hs
    have hmeets (t : Stmt) (_ : t ∈ body.nodes) :
        (p.stmtSites (p.tree.memberFullName h) parents t).Meets fun sites ↦
          p.stmtSites (p.tree.memberFullName h) parents t = .ok sites :=
      (meets_stmtSites _ t).eq_ok
    exact ⟨body, sites, rfl, (Meets.mapM hmeets).1 sites hsites, rfl, rfl⟩

theorem mem_handles_of_callSummary {h c : MemberHandle} {s : CallSummary}
    (hs : p.callSummary parents h = .ok s) (hc : c ∈ s.callees.map Prod.fst) :
    c ∈ p.tree.handles := by
  obtain ⟨body, sites, -, -, hcallees, -⟩ := callSummary_eq hs
  rw [hcallees, List.map_map] at hc
  obtain ⟨x, hx, rfl⟩ := List.mem_map.1 hc
  exact List.mem_of_mem_filter hx

end Program

def Found (p : Program) (found : List (MemberHandle × CallSummary)) : Prop :=
  ∀ h s, found.lookup h = some s →
    h ∈ p.tree.handles ∧ p.callSummary (ParentIndex.ofTree p.tree) h = .ok s

/-- More summaries are found, among them those of the given members and of all that new members
call. -/
structure Finds (members : List MemberHandle) (found found' : List (MemberHandle × CallSummary)) :
    Prop where
  kept : ∀ h s, found.lookup h = some s → found'.lookup h = some s
  covers : ∀ h ∈ members, (found'.lookup h).isSome
  closed : ∀ h s, found'.lookup h = some s →
    found.lookup h = some s ∨ ∀ c ∈ s.callees, (found'.lookup c.1).isSome

namespace Finds

variable {found found' found'' : List (MemberHandle × CallSummary)} {h : MemberHandle}
  {members : List MemberHandle}

theorem refl (hm : ∀ h ∈ members, (found.lookup h).isSome) : Finds members found found :=
  ⟨fun _ _ hs ↦ hs, hm, fun _ _ hs ↦ .inl hs⟩

theorem isSome (hf : Finds members found found') (hs : (found.lookup h).isSome) :
    (found'.lookup h).isSome := by
  obtain ⟨s, hs⟩ := Option.isSome_iff_exists.1 hs
  rw [hf.kept h s hs]
  rfl

theorem cons (hf : Finds [h] found found') (hf' : Finds members found' found'') :
    Finds (h :: members) found found'' where
  kept k s hs := hf'.kept k s (hf.kept k s hs)
  covers := List.forall_mem_cons.2 ⟨hf'.isSome (hf.covers h List.mem_cons_self), hf'.covers⟩
  closed := by
    intro k s hs
    rcases hf'.closed k s hs with hs | hs
    · rcases hf.closed k s hs with hs | hs
      · exact .inl hs
      · exact .inr fun c hc ↦ hf'.isSome (hs c hc)
    · exact .inr hs

end Finds

namespace Program

variable {p : Program}

def unfound (p : Program) (found : List (MemberHandle × CallSummary)) : Nat :=
  p.tree.handles.countP fun h ↦ (found.lookup h).isNone

theorem unfound_le {found found' : List (MemberHandle × CallSummary)}
    {members : List MemberHandle} (hf : Finds members found found') :
    p.unfound found' ≤ p.unfound found := by
  apply List.countP_mono_left
  intro h _ hnone
  cases hs : found.lookup h with
  | none => rfl
  | some s =>
    rw [hf.kept h s hs] at hnone
    cases hnone

theorem unfound_lt {found : List (MemberHandle × CallSummary)} {h : MemberHandle} {s : CallSummary}
    (hh : h ∈ p.tree.handles) (hnone : found.lookup h = none) :
    p.unfound ((h, s) :: found) < p.unfound found := by
  unfold unfound
  rw [List.countP_eq_length_filter, List.countP_eq_length_filter]
  have hsub : (p.tree.handles.filter fun k ↦ (((h, s) :: found).lookup k).isNone).Sublist
      ((p.tree.handles.filter fun k ↦ (found.lookup k).isNone).filter fun k ↦ k ≠ h) := by
    rw [List.filter_filter]
    apply List.monotone_filter_right
    intro k hk
    rw [List.lookup_cons] at hk
    by_cases hkh : k = h
    · simp [hkh] at hk
    · rw [beq_false_of_ne hkh] at hk
      simpa [hkh] using hk
  refine Nat.lt_of_le_of_lt hsub.length_le ?_
  exact List.length_filter_lt_length_iff_exists.2 ⟨h, by simp [hh, hnone], by simp⟩

/-- A search that is deep enough finds a member and all that it calls. -/
theorem meets_collectCalls {depth : Nat} {found : List (MemberHandle × CallSummary)}
    {h : MemberHandle} (hh : h ∈ p.tree.handles) (hf : Found p found)
    (hdepth : p.unfound found < depth) :
    (p.collectCalls (ParentIndex.ofTree p.tree) depth found h).Meets
      fun found' ↦ Found p found' ∧ Finds [h] found found' := by
  induction depth generalizing found h with
  | zero => omega
  | succ depth ih =>
    unfold collectCalls
    cases hs : found.lookup h with
    | some s =>
      rw [if_pos (by rfl)]
      refine meets_ok ⟨hf, .refl ?_⟩
      intro k hk
      rw [List.mem_singleton.1 hk, hs]
      rfl
    | none =>
      rw [if_neg (by simp)]
      refine (meets_callSummary h).eq_ok.bind ?_
      intro summary hsummary
      have hfound : Found p ((h, summary) :: found) := by
        intro k s hk
        rw [List.lookup_cons] at hk
        split at hk
        next heq =>
          obtain rfl := eq_of_beq heq
          obtain rfl := Option.some.inj hk
          exact ⟨hh, hsummary⟩
        next => exact hf k s hk
      have hfold {cs : List (MemberHandle × UInt32)} {found : List (MemberHandle × CallSummary)}
          (hcs : ∀ c ∈ cs, c.1 ∈ p.tree.handles) (hf : Found p found)
          (hdepth : p.unfound found < depth) :
          (cs.foldlM (fun found c ↦ p.collectCalls (ParentIndex.ofTree p.tree) depth found c.1)
            found).Meets fun found' ↦ Found p found' ∧ Finds (cs.map Prod.fst) found found' := by
        induction cs generalizing found with
        | nil => exact meets_ok ⟨hf, .refl (List.forall_mem_nil _)⟩
        | cons c cs ihcs =>
          obtain ⟨hc, hcs⟩ := List.forall_mem_cons.1 hcs
          rw [List.foldlM_cons]
          refine (ih hc hf hdepth).bind ?_
          rintro found₁ ⟨hf₁, hfinds₁⟩
          have hdepth₁ := Nat.lt_of_le_of_lt (unfound_le hfinds₁) hdepth
          refine (ihcs hcs hf₁ hdepth₁).mono ?_
          rintro found₂ ⟨hf₂, hfinds₂⟩
          exact ⟨hf₂, hfinds₁.cons hfinds₂⟩
      refine (hfold ?_ hfound ?_).mono ?_
      · intro c hc
        exact mem_handles_of_callSummary hsummary
          (List.mem_map_of_mem (List.mem_reverse.1 hc))
      · exact Nat.lt_of_lt_of_le (unfound_lt hh hs) (Nat.lt_succ_iff.1 hdepth)
      · rintro found' ⟨hf', hfinds⟩
        refine ⟨hf', ⟨?_, ?_, ?_⟩⟩
        · intro k s hk
          refine hfinds.kept k s ?_
          have hne : k ≠ h := by
            rintro rfl
            rw [hs] at hk
            cases hk
          rw [List.lookup_cons, beq_false_of_ne hne]
          exact hk
        · intro k hk
          rw [List.mem_singleton.1 hk]
          exact hfinds.isSome (by simp)
        · intro k s hk
          rcases hfinds.closed k s hk with hcons | hclosed
          · rw [List.lookup_cons] at hcons
            split at hcons
            · obtain rfl := Option.some.inj hcons
              refine .inr fun c hc ↦ hfinds.covers c.1 ?_
              exact List.mem_map_of_mem (List.mem_reverse.2 hc)
            · exact .inl hcons
          · exact .inr hclosed

end Program

namespace CallGraph

variable {g : CallGraph} {p : Program} {entries : List MemberHandle}

structure Spans (g : CallGraph) (p : Program) (entries : List MemberHandle) : Prop where
  members : g.members ⊆ p.tree.handles
  entries : entries ⊆ g.members
  summary : ∀ h s, g.summary? h = some s → p.callSummary (ParentIndex.ofTree p.tree) h = .ok s
  closed : ∀ h, g.callees h ⊆ g.members

theorem mem_members {h : MemberHandle} : h ∈ g.members ↔ (g.summary? h).isSome := by
  unfold members summary?
  constructor
  · intro hh
    obtain ⟨x, hx, rfl⟩ := List.mem_map.1 hh
    rw [Option.isSome_iff_ne_none, ne_eq, List.lookup_eq_none_iff]
    intro hnone
    simpa using hnone x hx
  · intro hs
    obtain ⟨s, hs⟩ := Option.isSome_iff_exists.1 hs
    exact List.mem_map.2 ⟨(h, s), mem_of_lookup hs, rfl⟩

theorem lookup_filterMap (handles : List MemberHandle) (found : List (MemberHandle × CallSummary))
    (h : MemberHandle) :
    (handles.filterMap fun h ↦ (found.lookup h).map fun s ↦ (h, s)).lookup h =
      if h ∈ handles then found.lookup h else none := by
  induction handles with
  | nil => rfl
  | cons k handles ih =>
    rw [List.filterMap_cons]
    by_cases hk : h = k
    · subst hk
      cases hs : found.lookup h with
      | none => simp [ih, hs]
      | some s => simp
    · cases hs : found.lookup k with
      | none => simp [ih, hk]
      | some s => simp [List.lookup_cons, beq_false_of_ne hk, ih, hk]

theorem meets_ofEntryPoints (he : entries ⊆ p.tree.handles) :
    (CallGraph.ofEntryPoints p entries).Meets fun g ↦ g.Spans p entries := by
  unfold CallGraph.ofEntryPoints
  have hfold {hs : List MemberHandle} {found : List (MemberHandle × CallSummary)}
      (hhs : hs ⊆ p.tree.handles) (hf : Found p found) :
      (hs.foldlM (p.collectCalls (ParentIndex.ofTree p.tree) (p.tree.memberCount + 1))
        found).Meets fun found' ↦ Found p found' ∧ Finds hs found found' := by
    induction hs generalizing found with
    | nil => exact meets_ok ⟨hf, .refl (List.forall_mem_nil _)⟩
    | cons h hs ih =>
      obtain ⟨hh, hhs⟩ := List.cons_subset.1 hhs
      rw [List.foldlM_cons]
      have hdepth : p.unfound found < p.tree.memberCount + 1 :=
        Nat.lt_succ_of_le List.countP_le_length
      refine (Program.meets_collectCalls hh hf hdepth).bind ?_
      rintro found₁ ⟨hf₁, hfinds₁⟩
      refine (ih hhs hf₁).mono ?_
      rintro found₂ ⟨hf₂, hfinds₂⟩
      exact ⟨hf₂, hfinds₁.cons hfinds₂⟩
  have hempty : Found p [] := by
    intro h s hs
    cases hs
  refine (hfold (List.reverse_subset.2 he) hempty).bind ?_
  rintro found ⟨hf, hfinds⟩
  refine meets_ok ?_
  have hsummary (h : MemberHandle) : (CallGraph.mk (p.tree.handles.filterMap fun h ↦
      (found.lookup h).map fun s ↦ (h, s))).summary? h =
        if h ∈ p.tree.handles then found.lookup h else none := lookup_filterMap _ _ h
  have hmember (h : MemberHandle) (hs : (found.lookup h).isSome) : h ∈ (CallGraph.mk
      (p.tree.handles.filterMap fun h ↦ (found.lookup h).map fun s ↦ (h, s))).members := by
    obtain ⟨s, hs⟩ := Option.isSome_iff_exists.1 hs
    rw [mem_members, hsummary, if_pos (hf h s hs).1, hs]
    rfl
  constructor
  · intro h hh
    rw [mem_members, hsummary] at hh
    split at hh
    · assumption
    · cases hh
  · intro h hh
    exact hmember h (hfinds.covers h (List.mem_reverse.2 hh))
  · intro h s hs
    rw [hsummary] at hs
    split at hs
    · exact (hf h s hs).2
    · cases hs
  · intro h c hc
    unfold callees at hc
    rw [hsummary] at hc
    by_cases hh : h ∈ p.tree.handles
    · rw [if_pos hh] at hc
      cases hs : found.lookup h with
      | none =>
        rw [hs] at hc
        cases hc
      | some s =>
        rw [hs] at hc
        obtain ⟨x, hx, rfl⟩ := List.mem_map.1 hc
        rcases hfinds.closed h s hs with hnil | hclosed
        · cases hnil
        · exact hmember x.1 (hclosed x hx)
    · rw [if_neg hh] at hc
      cases hc

end CallGraph

theorem Leads.mono {α : Type} {next next' : α → List α} (h : ∀ a, next a ⊆ next' a) {a b : α}
    (hab : Leads next a b) : Leads next' a b := by
  induction hab with
  | refl => exact .refl
  | tail _ hbc ih => exact ih.tail (h _ hbc)

namespace CallGraph

variable {g : CallGraph} {p : Program} {entries : List MemberHandle}

theorem closed_componentCallees (hg : g.Spans p entries) (inlined : List MemberHandle) :
    Closed (g.componentCallees inlined) (g.members.filter fun h ↦ !inlined.contains h) := by
  intro h _ c hc
  obtain ⟨hc, hnot⟩ := List.mem_filter.1 hc
  rw [Bool.and_eq_true] at hnot
  exact List.mem_filter.2 ⟨hg.closed h hc, hnot.2⟩

/-- A graph that passes the check for recursion has an order of its components. -/
theorem meets_componentOrder (hg : g.Spans p entries) (hcheck : g.checkRecursion p = .ok ())
    (inlined : List MemberHandle) :
    (g.componentOrder inlined).Meets fun order ↦ order ⊆ g.members := by
  have hcycle : firstCycle (fun h ↦ (g.callees h).reverse) g.members = none := by
    unfold checkRecursion at hcheck
    cases hc : firstCycle (fun h ↦ (g.callees h).reverse) g.members with
    | none => rfl
    | some members =>
      rw [hc] at hcheck
      cases hcheck
  have hacyclic := acyclic_of_firstCycle
    (fun h _ ↦ List.reverse_subset.2 (hg.closed h)) hcycle
  let components := g.members.filter fun h ↦ !inlined.contains h
  have hsub (h : MemberHandle) : g.componentCallees inlined h ⊆ g.callees h :=
    List.filter_subset_self _
  have hleads {a b : MemberHandle} (hab : Leads (g.componentCallees inlined) a b) :
      Leads (fun h ↦ (g.callees h).reverse) a b :=
    hab.mono fun h c hc ↦ List.mem_reverse.2 (hsub h hc)
  have hclosed : Closed (g.componentCallees inlined) components := closed_componentCallees hg inlined
  have hcomponents : Acyclic (g.componentCallees inlined) components := by
    intro a ha b hb hab hba
    exact hacyclic a (List.mem_of_mem_filter ha) b (List.mem_of_mem_filter hb)
      (hleads hab) (hleads hba)
  have hself (h : MemberHandle) : h ∉ g.componentCallees inlined h := by
    intro hh
    simp [componentCallees] at hh
  unfold componentOrder
  rw [callersFirst_of_acyclic hclosed hcomponents hself]
  refine meets_ok ?_
  intro h hh
  exact List.mem_of_mem_filter ((mem_leavingOrder hclosed).1 (List.mem_reverse.1 hh))

end CallGraph

end Fabric
