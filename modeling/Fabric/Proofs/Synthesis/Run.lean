import Fabric.Proofs.Construction.Afforded
import Fabric.Proofs.Hardware.Manifest
import Fabric.Synthesis.Basic

namespace Fabric

open Synthesis

theorem firstRepetition_eq_none {names : List String} (h : names.Nodup) :
    firstRepetition names = none := by
  fun_induction firstRepetition names with
  | case1 b rest =>
    exact absurd List.mem_cons_self (List.nodup_cons.1 h).1
  | case2 a b rest hne ih => exact ih (List.nodup_cons.1 h).2
  | case3 => rfl

namespace Program

variable {p : Program} {plan : CallPlan} {g : CallGraph}

theorem nodup_names (hplan : plan.Follows p g) : (plan.components.map MemberPlan.fullName).Nodup := by
  have hkeys : plan.components.map MemberPlan.fullName = plan.members.entries.map Prod.fst := by
    unfold CallPlan.components
    rw [List.map_map]
    exact List.map_congr_left fun x hx ↦ (hplan.names x hx).1
  rw [hkeys, List.Nodup, List.pairwise_map]
  refine plan.members.sorted.imp ?_
  intro a b hlt heq
  rw [heq] at hlt
  exact String.lt_irrefl _ hlt

theorem exists_assemble (hplan : plan.Follows p g) {components : List Component}
    (hnames : components.map Component.name = plan.components.map MemberPlan.fullName)
    (proxies : List Proxy) : ∃ d, p.assemble plan components proxies = .ok d := by
  have hnodup : ((components.mergeSort fun a b ↦ decide (a.name ≤ b.name)).map
      Component.name).Nodup := by
    refine ((List.mergeSort_perm components _).map Component.name).nodup_iff.2 ?_
    rw [hnames]
    exact nodup_names hplan
  have hinfo (e : MemberId) (he : e ∈ (MemberIdTable.ofNames
      ((plan.components.filter MemberPlan.isEntry).map MemberPlan.fullName)).entries) :
      ∃ info, p.entryPointInfo plan e = .ok info := by
    obtain ⟨m, hm, hname⟩ := List.mem_map.1 (MemberIdTable.mem_of_mem_ofNames he)
    obtain ⟨x, hx, rfl⟩ := List.mem_map.1 (List.mem_of_mem_filter hm)
    have hkey : (plan.member? e.fullName).isSome := by
      rw [← hname, (hplan.names x hx).1]
      exact Dictionary.isSome_get? hx
    unfold entryPointInfo
    cases hfound : plan.member? e.fullName with
    | none =>
      rw [hfound] at hkey
      cases hkey
    | some m => exact ⟨_, rfl⟩
  obtain ⟨infos, hinfos⟩ := Synthesis.exists_mapM hinfo
  unfold assemble
  dsimp only
  rw [firstRepetition_eq_none hnodup]
  dsimp only
  rw [hinfos]
  exact ⟨_, rfl⟩

end Program

namespace Pool

/-- All components are given in the order of their members, and a pool fails with an error of one
of the members. Which of several errors that is depends on the workers. -/
structure Collects (pool : Pool) : Prop where
  ok_iff : ∀ job members components,
    pool job members = .ok components ↔ members.mapM job = .ok components
  error : ∀ job members e, pool job members = .error e → ∃ m ∈ members, job m = .error e

theorem collects_single : single.Collects where
  ok_iff _ _ _ := Iff.rfl
  error _ _ _ h := Synthesis.exists_of_mapM_error h

/-- One worker that starts at the last member. -/
def backwards : Pool := fun job members ↦ (members.reverse.mapM job).map List.reverse

theorem collects_backwards : backwards.Collects where
  ok_iff job members components := by
    have hmap : backwards job members = .ok components ↔
        members.reverse.mapM job = .ok components.reverse := by
      unfold backwards
      cases members.reverse.mapM job with
      | error e => simp [Except.map]
      | ok cs => simp [Except.map, List.reverse_eq_iff]
    rw [hmap, Synthesis.mapM_eq_ok_iff, Synthesis.mapM_eq_ok_iff, List.forall₂_reverse_iff]
  error job members e h := by
    unfold backwards at h
    cases hjobs : members.reverse.mapM job with
    | error e' =>
      rw [hjobs] at h
      obtain rfl := Except.error.inj h
      obtain ⟨m, hm, he⟩ := Synthesis.exists_of_mapM_error hjobs
      exact ⟨m, List.mem_reverse.1 hm, he⟩
    | ok components =>
      rw [hjobs] at h
      cases h

theorem Collects.meets {pool : Pool} (hpool : pool.Collects) {job : MemberPlan → Synthesis Component}
    {members : List MemberPlan} {R : MemberPlan → Component → Prop}
    (h : ∀ m ∈ members, (job m).Meets (R m)) : (pool job members).Meets (List.Forall₂ R members) := by
  constructor
  · intro components hcomponents
    exact (Meets.mapM h).1 components ((hpool.ok_iff ..).1 hcomponents)
  · intro reason hreason
    obtain ⟨m, hm, he⟩ := hpool.error _ _ _ hreason
    exact (h m hm).2 reason he

end Pool

namespace SyntaxTree

variable {pool : Pool}

theorem meets_run (hpool : pool.Collects) (types : List TypeDecl) (config : Config)
    (identity : String) (hsize : (ofTypes types).ids.length ≤ 2 ^ 32) :
    ((ofTypes types).run pool config identity false).Meets fun _ ↦ True := by
  have hprepare : (Program.prepare (ofTypes types) config identity).Meets fun p ↦
      p.tree.ids.Nodup ∧ p.NamesDistinct := by
    refine (meets_mapError SynthesisError.ofTimingError_ne _).bind ?_
    intro timing _
    refine (meets_mapError SynthesisError.ofResolveError_ne _).bind ?_
    intro r hr
    obtain ⟨hderives, hnames⟩ := derives_resolve hr
    refine meets_ok ⟨hderives.ids.nodup (nodup_ids_ofTypes types hsize), ?_⟩
    unfold Program.NamesDistinct
    rwa [map_memberFullName_handles]
  refine hprepare.bind ?_
  rintro p ⟨hids, hnames⟩
  have hentries : p.entryPoints ⊆ p.tree.handles := by
    intro h hh
    exact List.mem_of_mem_filter (List.mem_mergeSort.1 hh)
  dsimp only
  split
  · apply meets_error
    intro reason h
    cases h
  · refine (CallPlan.meets_ofProgram hentries).bind ?_
    rintro plan ⟨g, hg, hplan⟩
    refine (meets_ok trivial : (checkCancelled false).Meets fun _ ↦ True).bind ?_
    intro _ _
    have hcomponents : ∀ m ∈ plan.components,
        ((⟨p, plan, m⟩ : Lowering).component).Meets fun c ↦ c.name = m.fullName :=
      fun m hm ↦ Lowering.meets_component hg hplan hm hids hnames
    refine (hpool.meets hcomponents).bind ?_
    intro components hall
    obtain ⟨d, hd⟩ := Program.exists_assemble hplan (map_eq_of_forall₂ hall)
      (plan.proxies components)
    rw [hd]
    exact meets_ok trivial

/-- Synthesis of a tree with no more nodes than there are numbers never finds a defect of its own,
whichever of the errors of its members the workers give: calls have slots, belong to statements and are
not expanded where they run in parallel, the plan has an order, and components and entry points are those
of the plan. -/
theorem run_ne_inconsistent (hpool : pool.Collects) (types : List TypeDecl) (config : Config)
    (identity : String) (hsize : (ofTypes types).ids.length ≤ 2 ^ 32) (reason : String) :
    (ofTypes types).run pool config identity false ≠ .error (.inconsistent reason) :=
  (meets_run hpool types config identity hsize).2 reason

end SyntaxTree

def servedCalls : List TypeDecl :=
  pairedCalls.map fun d ↦ { d with
    visibility := .pub
    methods := d.methods.map fun m ↦
      { m with modifiers := { visibility := .pub, isVirtual := true } } }

theorem run_servedCalls :
    (SyntaxTree.ofTypes servedCalls).ids.length = 20 ∧ Pool.backwards.Collects ∧
      ∀ reason, (SyntaxTree.ofTypes servedCalls).run .backwards { device := "Zynq-7020" } "" false ≠
        .error (.inconsistent reason) :=
  ⟨by decide +kernel, Pool.collects_backwards,
    SyntaxTree.run_ne_inconsistent Pool.collects_backwards _ _ _ (by decide +kernel)⟩

end Fabric
