import Fabric.Proofs.Calls.Reachable
import Fabric.Proofs.Text.Order

namespace Fabric

open Synthesis
open scoped List

namespace Synthesis

variable {α β : Type} {e : SynthesisError}

theorem bind_eq_error {x : Synthesis α} {f : α → Synthesis β} :
    x >>= f = .error e ↔ x = .error e ∨ ∃ a, x = .ok a ∧ f a = .error e := by
  cases x with
  | ok a => simp [bind, Except.bind]
  | error e' => simp [bind, Except.bind]

theorem foldlM_eq_error {f : α → β → Synthesis α} {bs : List β} {a : α}
    (h : bs.foldlM f a = .error e) : ∃ a, ∃ b ∈ bs, f a b = .error e := by
  induction bs generalizing a with
  | nil => cases h
  | cons b bs ih =>
    rw [List.foldlM_cons] at h
    rcases bind_eq_error.1 h with h | ⟨a', -, h⟩
    · exact ⟨a, b, List.mem_cons_self, h⟩
    · obtain ⟨a'', c, hc, h⟩ := ih h
      exact ⟨a'', c, List.mem_cons_of_mem _ hc, h⟩

end Synthesis

/-- A class of several members that are reached and reach each other. -/
structure Program.IsCircle (p : Program) (entries members : List MemberHandle) : Prop where
  nodup : members.Nodup
  several : 1 < members.length
  complete : ∀ a ∈ members, ∀ b,
    b ∈ members ↔ p.Reachable entries b ∧ p.CallsOn a b ∧ p.CallsOn b a

def Program.CircleFree (p : Program) (entries : List MemberHandle) : Prop :=
  ∀ a b, p.Reachable entries a → p.Reachable entries b → p.CallsOn a b → p.CallsOn b a → a = b

namespace CallGraph

variable {g : CallGraph} {p : Program} {entries : List MemberHandle}

theorem leads_reverse_iff (hg : g.Spans p entries) {a b : MemberHandle} (ha : a ∈ g.members) :
    Leads (fun h ↦ (g.callees h).reverse) a b ↔ p.CallsOn a b := by
  rw [← leads_iff hg ha]
  exact ⟨.mono fun h ↦ List.reverse_subset.2 (List.Subset.refl _),
    .mono fun h ↦ List.subset_reverse.2 (List.Subset.refl _)⟩

theorem closed_reverse (hg : g.Spans p entries) :
    Closed (fun h ↦ (g.callees h).reverse) g.members :=
  fun h _ ↦ List.reverse_subset.2 (hg.closed h)

theorem circleFree_of_firstCycle (hg : CallGraph.ofEntryPoints p entries = .ok g)
    (h : firstCycle (fun h ↦ (g.callees h).reverse) g.members = none) :
    p.CircleFree entries := by
  have hspans := spans_ofEntryPoints hg
  intro a b ha hb hab hba
  have ha := (mem_members_iff hg).2 ha
  have hb := (mem_members_iff hg).2 hb
  exact acyclic_of_firstCycle (closed_reverse hspans) h a ha b hb
    ((leads_reverse_iff hspans ha).2 hab) ((leads_reverse_iff hspans hb).2 hba)

theorem isCircle_of_firstCycle (hg : CallGraph.ofEntryPoints p entries = .ok g)
    {members : List MemberHandle}
    (h : firstCycle (fun h ↦ (g.callees h).reverse) g.members = some members) :
    p.IsCircle entries members := by
  have hspans := spans_ofEntryPoints hg
  obtain ⟨hnodup, hseveral, a, ha, hmem⟩ := firstCycle_eq_some (closed_reverse hspans) h
  have hmem (b : MemberHandle) :
      b ∈ members ↔ p.Reachable entries b ∧ p.CallsOn a b ∧ p.CallsOn b a := by
    rw [hmem, ← mem_members_iff hg, leads_reverse_iff hspans ha]
    refine and_congr_right fun hb ↦ ?_
    rw [leads_reverse_iff hspans hb]
  refine ⟨hnodup, hseveral, fun b hb c ↦ ?_⟩
  obtain ⟨-, hab, hba⟩ := (hmem b).1 hb
  rw [hmem c]
  refine and_congr_right fun _ ↦ ⟨?_, ?_⟩
  · rintro ⟨hac, hca⟩
    exact ⟨hba.trans hac, hca.trans hab⟩
  · rintro ⟨hbc, hcb⟩
    exact ⟨hab.trans hbc, hcb.trans hba⟩

end CallGraph

theorem Program.IsCircle.ne_nil {p : Program} {entries members : List MemberHandle}
    (h : p.IsCircle entries members) : members ≠ [] :=
  List.ne_nil_of_length_pos (Nat.lt_trans Nat.zero_lt_one h.several)

theorem Program.IsCircle.not_circleFree {p : Program} {entries members : List MemberHandle}
    (h : p.IsCircle entries members) : ∃ a b, a ≠ b ∧ p.Reachable entries a ∧
      p.Reachable entries b ∧ p.CallsOn a b ∧ p.CallsOn b a := by
  match members, h with
  | a :: b :: rest, h =>
    have hb := (h.complete a List.mem_cons_self b).1 (by simp)
    have ha := (h.complete a List.mem_cons_self a).1 List.mem_cons_self
    refine ⟨a, b, ?_, ha.1, hb.1, hb.2⟩
    rintro rfl
    exact (List.nodup_cons.1 h.nodup).1 List.mem_cons_self
  | [_], h => exact absurd h.several (Nat.lt_irrefl 1)
  | [], h => exact absurd h.several (Nat.not_lt_zero 1)

namespace CallPlan

variable {p : Program} {entries : List MemberHandle} {g : CallGraph}

theorem construct_of_allocate {member : String} {demand selfCalls : UInt32} {bound : InstanceCount}
    {construct name : String} (h : CallGraph.allocate member demand selfCalls bound =
      .error (.unsupported construct name)) :
    construct = "recursive call without a configured instance count" := by
  unfold CallGraph.allocate at h
  split at h
  · split at h
    · exact (SynthesisError.unsupported.inj (Except.error.inj h)).1.symm
    · dsimp only at h
      split at h
      · cases h
      · cases h
  · split at h
    · cases h
    · cases h

theorem construct_of_ofProgram (hg : CallGraph.ofEntryPoints p entries = .ok g)
    (hcycle : firstCycle (fun h ↦ (g.callees h).reverse) g.members = none) {construct name : String}
    (h : CallPlan.ofProgram p entries = .error (.unsupported construct name)) :
    construct = "recursive call without a configured instance count" := by
  have hcheck : g.checkRecursion p = .ok () := by
    unfold CallGraph.checkRecursion
    rw [hcycle]
  unfold CallPlan.ofProgram at h
  rw [hg, Synthesis.ok_bind, hcheck, Synthesis.ok_bind] at h
  dsimp only at h
  rcases bind_eq_error.1 h with h | ⟨order, -, h⟩
  · unfold CallGraph.componentOrder at h
    split at h
    · cases h
    · cases h
  · rcases bind_eq_error.1 h with h | ⟨planned, -, h⟩
    · obtain ⟨done, k, -, h⟩ := foldlM_eq_error h
      unfold CallGraph.planMember at h
      dsimp only at h
      rcases bind_eq_error.1 h with h | ⟨count, -, h⟩
      · exact construct_of_allocate h
      · cases h
    · cases h

/-- Planning fails with the circle that is found: its names are sorted, and the first of them is the
member that is reported. -/
theorem ofProgram_of_firstCycle (hg : CallGraph.ofEntryPoints p entries = .ok g)
    {members : List MemberHandle} (hne : members ≠ [])
    (hcycle : firstCycle (fun h ↦ (g.callees h).reverse) g.members = some members) :
    ∃ names name, CallPlan.ofProgram p entries =
        .error (.unsupported ("mutual recursion between " ++ ", ".intercalate names) name) ∧
      names ~ members.map p.tree.memberFullName ∧ names.Pairwise (· ≤ ·) ∧
      names.head? = some name := by
  let names := (members.map p.tree.memberFullName).mergeSort fun a b ↦ decide (a ≤ b)
  have hperm : names ~ members.map p.tree.memberFullName := List.mergeSort_perm _ _
  have hnames : names ≠ [] := fun h ↦
    hne (List.map_eq_nil_iff.1 (List.nil_perm.1 (h ▸ hperm)))
  refine ⟨names, names.headD "", ?_, hperm, pairwise_mergeSort_text id _, ?_⟩
  · unfold CallPlan.ofProgram CallGraph.checkRecursion
    rw [hg, Synthesis.ok_bind, hcycle]
    rfl
  · rw [List.headD_eq_head?_getD, List.head?_eq_some_head hnames, Option.getD_some]

/-- Planning refuses members that call each other in a circle and no others. The error lists the
members of a circle in the order of their names and is reported for the first of them. -/
theorem ofProgram_circle (hg : CallGraph.ofEntryPoints p entries = .ok g) :
    ((∃ construct name, CallPlan.ofProgram p entries = .error (.unsupported construct name) ∧
        "mutual recursion between ".toList <+: construct.toList) ↔
      ∃ a b, a ≠ b ∧ p.Reachable entries a ∧ p.Reachable entries b ∧ p.CallsOn a b ∧
        p.CallsOn b a) ∧
    (∀ construct name, CallPlan.ofProgram p entries = .error (.unsupported construct name) →
      "mutual recursion between ".toList <+: construct.toList →
      ∃ members names, p.IsCircle entries members ∧
        names ~ members.map p.tree.memberFullName ∧ names.Pairwise (· ≤ ·) ∧
        construct = "mutual recursion between " ++ ", ".intercalate names ∧
        names.head? = some name) ∧
    ∀ plan, CallPlan.ofProgram p entries = .ok plan → p.CircleFree entries := by
  cases hcycle : firstCycle (fun h ↦ (g.callees h).reverse) g.members with
  | none =>
    have hfree := CallGraph.circleFree_of_firstCycle hg hcycle
    have hnone {construct name : String}
        (h : CallPlan.ofProgram p entries = .error (.unsupported construct name))
        (hstart : "mutual recursion between ".toList <+: construct.toList) : False := by
      obtain rfl := construct_of_ofProgram hg hcycle h
      revert hstart
      decide
    refine ⟨⟨?_, ?_⟩, ?_, fun plan _ ↦ hfree⟩
    · rintro ⟨construct, name, h, hstart⟩
      exact (hnone h hstart).elim
    · rintro ⟨a, b, hne, ha, hb, hab, hba⟩
      exact absurd (hfree a b ha hb hab hba) hne
    · intro construct name h hstart
      exact (hnone h hstart).elim
  | some members =>
    have hcircle := CallGraph.isCircle_of_firstCycle hg hcycle
    obtain ⟨names, name, hplan, hperm, hsorted, hhead⟩ :=
      ofProgram_of_firstCycle hg hcircle.ne_nil hcycle
    have hstart : "mutual recursion between ".toList <+:
        ("mutual recursion between " ++ ", ".intercalate names).toList := by
      rw [String.toList_append]
      exact List.prefix_append _ _
    refine ⟨⟨fun _ ↦ hcircle.not_circleFree, fun _ ↦ ⟨_, _, hplan, hstart⟩⟩, ?_, ?_⟩
    · intro construct name' h _
      rw [hplan] at h
      obtain ⟨rfl, rfl⟩ := SynthesisError.unsupported.inj (Except.error.inj h)
      exact ⟨members, names, hcircle, hperm, hsorted, rfl, hhead⟩
    · intro plan h
      rw [hplan] at h
      cases h

end CallPlan

def circularCalls : List TypeDecl :=
  let calling (name callee : String) : MethodDecl :=
    { name := name, body := some (.eval 0 (.call 0 ⟨"Ring", callee, []⟩ [])) }
  [{ fullName := "Ring", methods := [calling "Enter" "Left", calling "Right" "Left",
      calling "Left" "Right"] }]

theorem ofProgram_circularCalls : ∃ (p : Program) (g : CallGraph),
    Program.prepare (.ofTypes circularCalls) { device := "Zynq-7020" } "" = .ok p ∧
    CallGraph.ofEntryPoints p [⟨0, 0⟩] = .ok g ∧
    p.CallsOn ⟨0, 1⟩ ⟨0, 2⟩ ∧ p.CallsOn ⟨0, 2⟩ ⟨0, 1⟩ ∧
    ∃ construct name, CallPlan.ofProgram p [⟨0, 0⟩] = .error (.unsupported construct name) ∧
      "mutual recursion between ".toList <+: construct.toList := by
  have hcheck : Synthesis.check (do
      let p ← Program.prepare (.ofTypes circularCalls) { device := "Zynq-7020" } ""
      return (p, ← CallGraph.ofEntryPoints p [⟨0, 0⟩])) (fun x ↦
        x.2.members = [⟨0, 0⟩, ⟨0, 1⟩, ⟨0, 2⟩] ∧ x.2.callees ⟨0, 1⟩ = [⟨0, 2⟩] ∧
          x.2.callees ⟨0, 2⟩ = [⟨0, 1⟩]) = true := by decide +kernel
  obtain ⟨⟨p, g⟩, hpair, hcheck⟩ := Synthesis.check_eq_true.1 hcheck
  obtain ⟨p', hp, hpair⟩ := Synthesis.bind_eq_ok.1 hpair
  obtain ⟨g', hg, hpair⟩ := Synthesis.bind_eq_ok.1 hpair
  obtain ⟨rfl, rfl⟩ := Prod.mk.inj (Except.ok.inj hpair)
  obtain ⟨hmembers, hright, hleft⟩ := of_decide_eq_true hcheck
  dsimp only at hmembers hright hleft
  have hspans := CallGraph.spans_ofEntryPoints hg
  have h₁ : ⟨0, 1⟩ ∈ g'.members := by simp [hmembers]
  have h₂ : ⟨0, 2⟩ ∈ g'.members := by simp [hmembers]
  have h₁₂ : p'.CallsOn ⟨0, 1⟩ ⟨0, 2⟩ :=
    .single ((CallGraph.mem_callees_iff hspans h₁).1 (by simp [hright]))
  have h₂₁ : p'.CallsOn ⟨0, 2⟩ ⟨0, 1⟩ :=
    .single ((CallGraph.mem_callees_iff hspans h₂).1 (by simp [hleft]))
  refine ⟨p', g', hp, hg, h₁₂, h₂₁, (CallPlan.ofProgram_circle hg).1.2 ?_⟩
  exact ⟨_, _, by simp, (CallGraph.mem_members_iff hg).1 h₁, (CallGraph.mem_members_iff hg).1 h₂,
    h₁₂, h₂₁⟩

end Fabric
