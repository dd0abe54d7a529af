import Fabric.Proofs.Calls.Demand
import Fabric.Proofs.Hardware.Manifest
import Fabric.Proofs.Synthesis.EntryPoints
import Fabric.Proofs.Synthesis.Run

namespace Fabric

open Synthesis
open scoped List

namespace MemberPlan

variable {m : MemberPlan} {target : String}

def slotsTo (m : MemberPlan) (target : String) : List InvocationSlot :=
  (List.range m.instances.toNat).flatMap fun i ↦
    (List.range (m.slotsFor target)).map fun slot ↦
      ⟨m.fullName, UInt32.ofNat i, UInt32.ofNat slot⟩

theorem slotsFor_lt (m : MemberPlan) (target : String) : m.slotsFor target < 2 ^ 32 := by
  unfold slotsFor
  cases m.invocations.get? target with
  | none => exact Nat.two_pow_pos 32
  | some n => exact n.toNat_lt

theorem mem_slotsTo {s : InvocationSlot} : s ∈ m.slotsTo target ↔
    s.caller = m.fullName ∧ s.callerInstance < m.instances ∧ s.slot.toNat < m.slotsFor target := by
  rw [slotsTo, List.mem_flatMap]
  constructor
  · rintro ⟨i, hi, hs⟩
    obtain ⟨slot, hslot, rfl⟩ := List.mem_map.1 hs
    rw [List.mem_range] at hi hslot
    refine ⟨rfl, ?_, ?_⟩
    · rwa [UInt32.lt_iff_toNat_lt, UInt32.toNat_ofNat_of_lt' (Nat.lt_trans hi m.instances.toNat_lt)]
    · dsimp only
      rwa [UInt32.toNat_ofNat_of_lt' (Nat.lt_trans hslot (m.slotsFor_lt target))]
  · rintro ⟨hcaller, hinstance, hslot⟩
    refine ⟨s.callerInstance.toNat, List.mem_range.2 (UInt32.lt_iff_toNat_lt.1 hinstance), ?_⟩
    refine List.mem_map.2 ⟨s.slot.toNat, List.mem_range.2 hslot, ?_⟩
    rw [UInt32.ofNat_toNat, UInt32.ofNat_toNat, ← hcaller]

theorem nodup_slotsTo (m : MemberPlan) (target : String) : (m.slotsTo target).Nodup := by
  have hinj {i j : Nat} (hi : i < 2 ^ 32) (hj : j < 2 ^ 32) (heq : UInt32.ofNat i = UInt32.ofNat j) :
      i = j := by
    have h := congrArg UInt32.toNat heq
    rwa [UInt32.toNat_ofNat_of_lt' hi, UInt32.toNat_ofNat_of_lt' hj] at h
  refine List.nodup_flatMap.2 ⟨fun i _ ↦ ?_, ?_⟩
  · refine List.nodup_range.map_on fun a ha b hb heq ↦ ?_
    rw [List.mem_range] at ha hb
    exact hinj (Nat.lt_trans ha (m.slotsFor_lt target)) (Nat.lt_trans hb (m.slotsFor_lt target))
      (InvocationSlot.mk.inj heq).2.2
  · refine List.nodup_range.imp_of_mem fun {i j} hi hj hne ↦ ?_
    rw [List.mem_range] at hi hj
    intro s hsi hsj
    obtain ⟨a, -, rfl⟩ := List.mem_map.1 hsi
    obtain ⟨b, -, heq⟩ := List.mem_map.1 hsj
    exact hne (hinj (Nat.lt_trans hi m.instances.toNat_lt) (Nat.lt_trans hj m.instances.toNat_lt)
      (InvocationSlot.mk.inj heq).2.1.symm)

theorem lt_slotsFor_iff {k : Nat} : k < m.slotsFor target ↔
    ∃ n, (target, n) ∈ m.invocations.entries ∧ k < n.toNat := by
  simp only [← Dictionary.get?_eq_some_iff]
  unfold slotsFor
  cases m.invocations.get? target with
  | none => simp
  | some n => simp

theorem length_slotsTo (m : MemberPlan) (target : String) :
    (m.slotsTo target).length = m.instances.toNat * m.slotsFor target := by
  simp [slotsTo, List.length_flatMap, List.map_const']

end MemberPlan

/-- The name of a member is not the one that stands for the outside. -/
theorem SyntaxTree.memberFullName_ne_external (t : SyntaxTree) (h : MemberHandle) :
    t.memberFullName h ≠ externalCaller := by
  intro heq
  have hend : (t.memberFullName h).toList = (((t.declaringType h).fullName ++ "." ++
      (t.method h).name ++ "(").toList ++
        (Text.joinWith "," ((t.method h).parameterTypes.map TypeRef.display)).toList) ++ [')'] := by
    simp [memberFullName, TypeDecl.memberFullName, MethodDecl.suffix, signatureSuffix]
  have hlast := congrArg List.getLast? (hend.symm.trans (congrArg String.toList heq))
  rw [List.getLast?_concat] at hlast
  exact absurd hlast (by decide)

namespace CallPlan

variable {plan : CallPlan} {p : Program} {entries : List MemberHandle} {g : CallGraph}
  {counts : List (MemberHandle × UInt32)} {m : MemberPlan}

theorem slotsOf_eq (hm : plan.member? m.fullName = some m) : plan.slotsOf m.fullName =
    plan.components.flatMap (MemberPlan.slotsTo · m.fullName) ++
      if m.isEntry then [⟨externalCaller, 0, 0⟩] else [] := by
  unfold slotsOf callersOf
  dsimp only
  rw [hm]
  refine congrArg (· ++ _) ?_
  induction plan.components with
  | nil => rfl
  | cons c components ih =>
    rw [List.filterMap_cons, List.flatMap_cons, ← ih, MemberPlan.slotsTo, MemberPlan.slotsFor]
    cases c.invocations.get? m.fullName with
    | none => simp
    | some n => rfl

theorem length_slotsOf (hm : plan.member? m.fullName = some m) :
    (plan.slotsOf m.fullName).length = (plan.components.map fun c ↦
      c.instances.toNat * c.slotsFor m.fullName).sum + if m.isEntry then 1 else 0 := by
  rw [slotsOf_eq hm, List.length_append, List.length_flatMap]
  simp only [MemberPlan.length_slotsTo]
  split <;> rfl

namespace Derives

theorem member?_eq (hd : plan.Derives p entries g counts) (hm : m ∈ plan.components) :
    plan.member? m.fullName = some m := by
  obtain ⟨h, count, hcount, rfl⟩ := hd.mem_components.1 hm
  exact (hd.plans.members _ _).2 ⟨h, count, hcount, rfl, rfl⟩

theorem increasing (hd : plan.Derives p entries g counts) :
    plan.components.Pairwise fun a b ↦ a.fullName < b.fullName := by
  rw [components, List.pairwise_map]
  refine plan.members.sorted.imp_of_mem fun {x y} hx hy hlt ↦ ?_
  have hkey {x : String × MemberPlan} (hx : x ∈ plan.members.entries) : x.2.fullName = x.1 := by
    obtain ⟨h, count, -, hname, hplan⟩ :=
      (hd.plans.members x.1 x.2).1 (Dictionary.get?_eq_some_iff.2 hx)
    rw [hplan, hname]
    rfl
  rwa [hkey hx, hkey hy]

theorem fullName_ne_external (hd : plan.Derives p entries g counts) (hm : m ∈ plan.components) :
    m.fullName ≠ externalCaller := by
  rw [hd.fullName_eq hm]
  exact p.tree.memberFullName_ne_external _

theorem mem_slotsOf (hd : plan.Derives p entries g counts) (hm : m ∈ plan.components)
    {s : InvocationSlot} : s ∈ plan.slotsOf m.fullName ↔
      (∃ c ∈ plan.components, s ∈ c.slotsTo m.fullName) ∨
        s = ⟨externalCaller, 0, 0⟩ ∧ m.isEntry = true := by
  rw [slotsOf_eq (hd.member?_eq hm), List.mem_append, List.mem_flatMap]
  refine or_congr_right ?_
  cases m.isEntry <;> simp

theorem nodup_slotsOf (hd : plan.Derives p entries g counts) (hm : m ∈ plan.components) :
    (plan.slotsOf m.fullName).Nodup := by
  rw [slotsOf_eq (hd.member?_eq hm)]
  refine List.nodup_append'.2 ⟨List.nodup_flatMap.2 ⟨fun c _ ↦ c.nodup_slotsTo _, ?_⟩, ?_, ?_⟩
  · refine hd.increasing.imp fun {a b} hlt s ha hb ↦ ?_
    rw [← (MemberPlan.mem_slotsTo.1 ha).1, (MemberPlan.mem_slotsTo.1 hb).1] at hlt
    exact String.lt_irrefl _ hlt
  · split
    · exact List.nodup_singleton _
    · exact List.nodup_nil
  · intro s hs hexternal
    obtain ⟨c, hc, hs⟩ := List.mem_flatMap.1 hs
    split at hexternal
    · rw [List.mem_singleton.1 hexternal] at hs
      exact hd.fullName_ne_external hc (MemberPlan.mem_slotsTo.1 hs).1.symm
    · cases hexternal

theorem exists_target (hd : plan.Derives p entries g counts) (hm : m ∈ plan.components)
    {target : String} {n : UInt32} (hx : (target, n) ∈ m.invocations.entries) :
    ∃ c ∈ plan.components, c.fullName = target := by
  have hspans := CallGraph.spans_ofEntryPoints hd.graph
  obtain ⟨hplan, -, hmem, -⟩ := hd.eq_memberPlan hm
  rw [hplan] at hx
  obtain ⟨k, hnot, hcalls, hname, -⟩ := (CallGraph.get?_invocations_iff hd.ids hd.names hspans
    hmem).1 (Dictionary.get?_eq_some_iff.2 hx)
  have hk : k ∈ g.members := hspans.closed _ ((CallGraph.mem_callees_iff hspans hmem).2 hcalls)
  obtain ⟨c, hc, rfl⟩ := List.mem_map.1 (hd.mem_handles.2 ⟨hk, hnot⟩)
  exact ⟨c, hc, (hd.fullName_eq hc).trans hname.symm⟩

theorem demand_le_length (hd : plan.Derives p entries g counts) (hm : m ∈ plan.components) :
    plan.demand m ≤ (plan.slotsOf m.fullName).length := by
  rw [length_slotsOf (hd.member?_eq hm), demand, Nat.add_comm]
  refine Nat.add_le_add_right (List.sum_le_sum fun c _ ↦ ?_) _
  split
  · exact Nat.zero_le _
  · exact Nat.le_refl _

theorem length_eq_demand (hd : plan.Derives p entries g counts) (hm : m ∈ plan.components)
    (hself : m.slotsFor m.fullName = 0) :
    (plan.slotsOf m.fullName).length = plan.demand m := by
  rw [length_slotsOf (hd.member?_eq hm), demand, Nat.add_comm]
  refine congrArg (_ + List.sum ·) (List.map_congr_left fun c hc ↦ ?_)
  split
  next heq =>
    obtain rfl := List.inj_on_of_nodup_map hd.nodup_handles hc hm heq
    rw [hself, Nat.mul_zero]
  next => rfl

/-- A component that does not invoke itself has an instance for every slot. -/
theorem length_eq_instances (hd : plan.Derives p entries g counts) (hm : m ∈ plan.components)
    (hself : m.slotsFor m.fullName = 0) (hdemand : plan.demand m < 2 ^ 32) :
    (plan.slotsOf m.fullName).length = m.instances.toNat := by
  have hcalls : ¬ p.Calls m.handle m.handle := by
    intro hcalls
    obtain ⟨s, hs⟩ := Option.isSome_iff_exists.1
      (CallGraph.mem_members.1 (hd.eq_memberPlan hm).2.2.1)
    have hpos := Program.mostCalls_pos
      ((CallGraph.spans_ofEntryPoints hd.graph).summary _ s hs) hcalls
    rw [← hd.slotsFor_eq hm hm, hself] at hpos
    exact Nat.lt_irrefl 0 hpos
  rw [hd.length_eq_demand hm hself, (hd.instances_plain hm hcalls).1, toNat_max,
    CallGraph.toNat_saturate hdemand]
  exact (Nat.max_eq_left (hd.demand_pos hm)).symm

end Derives

end CallPlan

theorem SyntaxTree.length_handles_le (t : SyntaxTree) : t.handles.length ≤ t.ids.length := by
  have hmethods (methods : List MethodDecl) :
      methods.length ≤ (methods.flatMap MethodDecl.ids).length := by
    induction methods with
    | nil => exact Nat.le_refl 0
    | cons m methods ih => simp [MethodDecl.ids]; omega
  have htypes (types : List TypeDecl) (n : Nat) : ((types.zipIdx n).flatMap fun x ↦
      (List.range x.1.methods.length).map fun j ↦ (⟨x.2, j⟩ : MemberHandle)).length ≤
        (types.flatMap TypeDecl.ids).length := by
    induction types generalizing n with
    | nil => exact Nat.le_refl 0
    | cons d types ih =>
      have hd := hmethods d.methods
      have hih := ih (n + 1)
      rw [List.zipIdx_cons, List.flatMap_cons, List.flatMap_cons, List.length_append,
        List.length_append, List.length_map, List.length_range, TypeDecl.ids, List.length_cons,
        List.length_append]
      dsimp only
      omega
  exact htypes t.types 0

namespace CallPlan.Derives

variable {plan : CallPlan} {p : Program} {g : CallGraph} {counts : List (MemberHandle × UInt32)}

/-- The entry points are components, and their names are in order. -/
theorem entryPoints_eq (hd : plan.Derives p p.entryPoints g counts) :
    (plan.components.filter MemberPlan.isEntry).map MemberPlan.fullName =
      p.entryPoints.map p.tree.memberFullName := by
  have hspans := CallGraph.spans_ofEntryPoints hd.graph
  have hincreasing : ((plan.components.filter MemberPlan.isEntry).map
      MemberPlan.fullName).Pairwise (· < ·) :=
    List.pairwise_map.2 (hd.increasing.filter _)
  have hselected := Program.increasing_entryPoints hd.names
  have hmem (name : String) : name ∈ (plan.components.filter MemberPlan.isEntry).map
      MemberPlan.fullName ↔ name ∈ p.entryPoints.map p.tree.memberFullName := by
    constructor
    · intro hname
      obtain ⟨m, hm, rfl⟩ := List.mem_map.1 hname
      obtain ⟨hm, hentry⟩ := List.mem_filter.1 hm
      rw [(hd.eq_memberPlan hm).1] at hentry
      exact List.mem_map.2 ⟨m.handle, List.contains_iff_mem.1 hentry, (hd.fullName_eq hm).symm⟩
    · intro hname
      obtain ⟨h, hh, rfl⟩ := List.mem_map.1 hname
      have hnot : h ∉ plan.inlined := by
        intro hin
        rw [hd.inlined] at hin
        exact (CallGraph.of_mem_inlined hd.graph hin).2.1 hh
      obtain ⟨m, hm, rfl⟩ := List.mem_map.1 (hd.mem_handles.2 ⟨hspans.entries hh, hnot⟩)
      refine List.mem_map.2 ⟨m, List.mem_filter.2 ⟨hm, ?_⟩, hd.fullName_eq hm⟩
      rw [(hd.eq_memberPlan hm).1]
      exact List.contains_iff_mem.2 hh
  exact eq_of_increasing hincreasing hselected hmem

end CallPlan.Derives

namespace SyntaxTree

variable {t : SyntaxTree} {pool : Pool} {config : Config} {identity : String} {cancelled : Bool}
  {d : Description}

theorem run_eq_ok (hpool : pool.Collects) (h : t.run pool config identity cancelled = .ok d) :
    ∃ p plan components, Program.prepare t config identity = .ok p ∧
      CallPlan.ofProgram p p.entryPoints = .ok plan ∧
      List.Forall₂ (fun m c ↦ (⟨p, plan, m⟩ : Lowering).component = .ok c) plan.components
        components ∧
      p.assemble plan components (plan.proxies components) = .ok d := by
  obtain ⟨p, hp, h⟩ := Synthesis.bind_eq_ok.1 h
  dsimp only at h
  split at h
  · cases h
  · obtain ⟨plan, hplan, h⟩ := Synthesis.bind_eq_ok.1 h
    obtain ⟨-, -, h⟩ := Synthesis.bind_eq_ok.1 h
    obtain ⟨components, hcomponents, h⟩ := Synthesis.bind_eq_ok.1 h
    exact ⟨p, plan, components, hp, hplan,
      Synthesis.forall₂_of_mapM ((hpool.ok_iff ..).1 hcomponents), h⟩

end SyntaxTree

/-- The parts of a manifest fit together. -/
structure Manifest.Wired (man : Manifest) (p : Program) (plan : CallPlan) : Prop where
  sorted : man.components.Pairwise fun a b ↦ a.name < b.name
  planned : man.components.map (fun c ↦ (c.name, c.instanceCount, c.invocations)) =
    plan.components.map fun m ↦
      (m.fullName, m.instances, m.invocations.entries.map fun x ↦ ⟨x.1, x.2⟩)
  proxies : man.proxies.map (fun q ↦ (q.target, q.instanceCount, q.parameters, q.returnType)) =
    man.components.map fun c ↦ (c.name, c.instanceCount, c.parameters, c.returnType)
  distinct : ∀ q ∈ man.proxies, q.slots.Nodup
  /-- A slot of a proxy is one of an instance of a caller, or that for the outside. -/
  slots : ∀ q ∈ man.proxies, ∀ s, s ∈ q.slots ↔
    (∃ c ∈ man.components, ∃ i ∈ c.invocations, i.target = q.target ∧ s.caller = c.name ∧
      s.callerInstance < c.instanceCount ∧ s.slot < i.slots) ∨
    s = ⟨externalCaller, 0, 0⟩ ∧ q.target ∈ p.entryPoints.map p.tree.memberFullName
  external : ∀ c ∈ man.components, c.name ≠ externalCaller
  targets : ∀ c ∈ man.components, (c.invocations.map OutgoingInvocation.target).Nodup ∧
    ∀ i ∈ c.invocations, i.target ∈ man.components.map Component.name
  served : (∀ q ∈ man.proxies, q.slots ≠ []) ∧ ∀ c ∈ man.components, 0 < c.instanceCount
  ids : man.memberIds.entries.map MemberId.fullName = p.entryPoints.map p.tree.memberFullName ∧
    man.memberIds.entries.Pairwise (fun a b ↦ a.fullName < b.fullName) ∧
    man.memberIds.entries.map (fun e ↦ e.id.toNat) = List.range p.entryPoints.length
  entryPoints : man.entryPoints.map (fun e ↦ (e.memberId, e.fullName)) =
    man.memberIds.entries.map fun e ↦ (e.id, e.fullName)
  component : ∀ name c, man.component? name = some c ↔ c ∈ man.components ∧ c.name = name
  proxy : ∀ name q, man.proxy? name = some q ↔ q ∈ man.proxies ∧ q.target = name
  entryPoint : ∀ name e, man.entryPoint? name = some e ↔ e ∈ man.entryPoints ∧ e.fullName = name
  idOf : ∀ name id, man.memberIds.idOf name = some id ↔ ⟨id, name⟩ ∈ man.memberIds.entries
  nameOf : ∀ name id, man.memberIds.nameOf id = some name ↔ ⟨id, name⟩ ∈ man.memberIds.entries
  /-- A component that does not invoke itself has an instance for every slot. -/
  balanced : ∀ m ∈ plan.components, plan.demand m < 2 ^ 32 → ∀ c ∈ man.components,
    c.name = m.fullName → c.name ∉ c.invocations.map OutgoingInvocation.target →
    ∀ q ∈ man.proxies, q.target = c.name → q.slots.length = c.instanceCount.toNat

namespace Program

variable {p : Program} {plan : CallPlan} {components : List Component} {proxies : List Proxy}
  {d : Description}

theorem assemble_eq_ok (h : p.assemble plan components proxies = .ok d) :
    d.manifest.components = components.mergeSort (fun a b ↦ decide (a.name ≤ b.name)) ∧
    d.manifest.proxies = proxies.mergeSort (fun a b ↦ decide (a.target ≤ b.target)) ∧
    d.manifest.memberIds = .ofNames
      ((plan.components.filter MemberPlan.isEntry).map MemberPlan.fullName) ∧
    List.Forall₂ (fun e i ↦ p.entryPointInfo plan e = .ok i) d.manifest.memberIds.entries
      d.manifest.entryPoints := by
  unfold assemble at h
  dsimp only at h
  split at h
  · cases h
  · obtain ⟨infos, hinfos, h⟩ := Synthesis.bind_eq_ok.1 h
    obtain rfl := Except.ok.inj h
    exact ⟨rfl, rfl, rfl, Synthesis.forall₂_of_mapM hinfos⟩

theorem entryPointInfo_eq {e : MemberId} {i : EntryPointInfo}
    (h : p.entryPointInfo plan e = .ok i) : (i.memberId, i.fullName) = (e.id, e.fullName) := by
  unfold entryPointInfo at h
  split at h
  · cases h
  · obtain rfl := Except.ok.inj h
    rfl

end Program

section

variable {p : Program} {plan : CallPlan} {g : CallGraph} {entries : List MemberHandle}
  {counts : List (MemberHandle × UInt32)} {m : MemberPlan} {c : Component}

structure MemberPlan.Realizes (m : MemberPlan) (c : Component) : Prop where
  name : c.name = m.fullName
  instances : c.instanceCount = m.instances
  invocations : c.invocations = m.invocations.entries.map fun x ↦ ⟨x.1, x.2⟩

theorem Lowering.realizes_component {l : Lowering} (h : l.component = .ok c) :
    l.member.Realizes c := by
  unfold component at h
  obtain ⟨code, -, h⟩ := Synthesis.bind_eq_ok.1 h
  obtain ⟨parameters, -, h⟩ := Synthesis.bind_eq_ok.1 h
  obtain ⟨returnType, -, h⟩ := Synthesis.bind_eq_ok.1 h
  obtain ⟨d, -, h⟩ := Synthesis.bind_eq_ok.1 h
  obtain rfl := Except.ok.inj h
  exact ⟨rfl, rfl, rfl⟩

theorem MemberPlan.Realizes.mem_invocations (h : m.Realizes c) {i : OutgoingInvocation} :
    i ∈ c.invocations ↔ (i.target, i.slots) ∈ m.invocations.entries := by
  rw [h.invocations, List.mem_map]
  constructor
  · rintro ⟨x, hx, rfl⟩
    exact hx
  · intro hi
    exact ⟨_, hi, rfl⟩

theorem CallPlan.Derives.slots_proxy (hd : plan.Derives p entries g counts)
    (hm : m ∈ plan.components) (hc : m.Realizes c) :
    (plan.proxy c).slots ~ plan.slotsOf m.fullName := by
  have hperm : (plan.slotsOf m.fullName).mergeSort InvocationSlot.le ~ plan.slotsOf m.fullName :=
    List.mergeSort_perm _ _
  unfold CallPlan.proxy Proxy.make
  dsimp only
  rw [hc.name, dedupSorted_of_nodup (hperm.nodup_iff.2 (hd.nodup_slotsOf hm))]
  exact hperm

theorem CallPlan.Derives.mem_slots_proxy (hd : plan.Derives p p.entryPoints g counts)
    {components : List Component} (hr : List.Forall₂ MemberPlan.Realizes plan.components components)
    (hm : m ∈ plan.components) (hc : m.Realizes c) (s : InvocationSlot) :
    s ∈ (plan.proxy c).slots ↔
      (∃ k ∈ components, ∃ i ∈ k.invocations, i.target = c.name ∧ s.caller = k.name ∧
        s.callerInstance < k.instanceCount ∧ s.slot < i.slots) ∨
      s = ⟨externalCaller, 0, 0⟩ ∧ c.name ∈ p.entryPoints.map p.tree.memberFullName := by
  have hentry : m.isEntry = true ↔ c.name ∈ p.entryPoints.map p.tree.memberFullName := by
    rw [hc.name, ← hd.entryPoints_eq]
    constructor
    · intro hentry
      exact List.mem_map_of_mem (List.mem_filter.2 ⟨hm, hentry⟩)
    · intro hname
      obtain ⟨m', hm', heq⟩ := List.mem_map.1 hname
      obtain ⟨hm', hentry⟩ := List.mem_filter.1 hm'
      rwa [List.inj_on_of_nodup_map (nodup_of_increasing hd.increasing) hm' hm heq] at hentry
  rw [(hd.slots_proxy hm hc).mem_iff, hd.mem_slotsOf hm, hentry]
  refine or_congr_left ⟨?_, ?_⟩
  · rintro ⟨m', hm', hs⟩
    obtain ⟨hcaller, hinstance, hslot⟩ := MemberPlan.mem_slotsTo.1 hs
    obtain ⟨n, hn, hslot⟩ := MemberPlan.lt_slotsFor_iff.1 hslot
    obtain ⟨k, hk, hk'⟩ := exists_of_mem_forall₂ hr.flip hm'
    refine ⟨k, hk, ⟨m.fullName, n⟩, hk'.mem_invocations.2 hn, hc.name.symm, ?_, ?_, ?_⟩
    · rw [hk'.name, hcaller]
    · rwa [hk'.instances]
    · exact UInt32.lt_iff_toNat_lt.2 hslot
  · rintro ⟨k, hk, i, hi, htarget, hcaller, hinstance, hslot⟩
    obtain ⟨m', hm', hk'⟩ := exists_of_mem_forall₂ hr hk
    refine ⟨m', hm', MemberPlan.mem_slotsTo.2
      ⟨?_, ?_, MemberPlan.lt_slotsFor_iff.2 ⟨i.slots, ?_, ?_⟩⟩⟩
    · rw [hcaller, hk'.name]
    · rwa [← hk'.instances]
    · rw [← hc.name, ← htarget]
      exact hk'.mem_invocations.1 hi
    · exact UInt32.lt_iff_toNat_lt.1 hslot

theorem MemberPlan.Realizes.nodup_targets (hc : m.Realizes c) :
    (c.invocations.map OutgoingInvocation.target).Nodup := by
  rw [hc.invocations, List.map_map]
  exact @nodup_of_increasing _ Prod.fst _ m.invocations.sorted

theorem MemberPlan.Realizes.slotsFor_eq_zero (hc : m.Realizes c)
    (hself : c.name ∉ c.invocations.map OutgoingInvocation.target) :
    m.slotsFor m.fullName = 0 := by
  by_contra hne
  obtain ⟨n, hn, -⟩ := MemberPlan.lt_slotsFor_iff.1 (Nat.pos_of_ne_zero hne)
  apply hself
  rw [hc.name]
  exact List.mem_map.2 ⟨⟨m.fullName, n⟩, hc.mem_invocations.2 hn, rfl⟩

end

namespace Manifest

variable {man : Manifest} {p : Program} {plan : CallPlan} {g : CallGraph}
  {counts : List (MemberHandle × UInt32)}

/-- The manifest has the components of a plan and what is derived from them. -/
structure Follows (man : Manifest) (p : Program) (plan : CallPlan) (g : CallGraph)
    (counts : List (MemberHandle × UInt32)) : Prop where
  derives : plan.Derives p p.entryPoints g counts
  components : List.Forall₂ MemberPlan.Realizes plan.components man.components
  proxies : man.proxies = man.components.map plan.proxy
  memberIds : man.memberIds = .ofNames (p.entryPoints.map p.tree.memberFullName)
  entryPoints : man.entryPoints.map (fun e ↦ (e.memberId, e.fullName)) =
    man.memberIds.entries.map fun e ↦ (e.id, e.fullName)

namespace Follows

theorem names_eq (h : man.Follows p plan g counts) :
    man.components.map Component.name = plan.components.map MemberPlan.fullName :=
  map_eq_of_forall₂ (h.components.imp fun _ _ hc ↦ hc.name)

theorem increasing (h : man.Follows p plan g counts) :
    man.components.Pairwise fun a b ↦ a.name < b.name := by
  have hmap : (man.components.map Component.name).Pairwise (· < ·) := by
    rw [h.names_eq]
    exact List.pairwise_map.2 h.derives.increasing
  exact List.pairwise_map.1 hmap

theorem increasing_proxies (h : man.Follows p plan g counts) :
    man.proxies.Pairwise fun a b ↦ a.target < b.target := by
  rw [h.proxies]
  exact List.pairwise_map.2 h.increasing

theorem exists_of_mem_proxies (h : man.Follows p plan g counts) {q : Proxy} (hq : q ∈ man.proxies) :
    ∃ m ∈ plan.components, ∃ c, m.Realizes c ∧ q = plan.proxy c := by
  rw [h.proxies] at hq
  obtain ⟨c, hc, rfl⟩ := List.mem_map.1 hq
  obtain ⟨m, hm, hrealized⟩ := exists_of_mem_forall₂ h.components hc
  exact ⟨m, hm, c, hrealized, rfl⟩

theorem increasing_names (h : man.Follows p plan g counts) :
    (p.entryPoints.map p.tree.memberFullName).Pairwise (· < ·) := by
  rw [← h.derives.entryPoints_eq]
  exact List.pairwise_map.2 (h.derives.increasing.filter _)

theorem fullName_memberIds (h : man.Follows p plan g counts) :
    man.memberIds.entries.map MemberId.fullName = p.entryPoints.map p.tree.memberFullName := by
  rw [h.memberIds]
  exact MemberIdTable.fullName_ofNames h.increasing_names

theorem increasing_memberIds (h : man.Follows p plan g counts) :
    man.memberIds.entries.Pairwise fun a b ↦ a.fullName < b.fullName :=
  List.pairwise_map.1 (h.fullName_memberIds ▸ h.increasing_names)

theorem id_memberIds (h : man.Follows p plan g counts) (i : Nat) (e : MemberId)
    (he : man.memberIds.entries[i]? = some e) : e.id.toNat = i := by
  have hlength : (p.entryPoints.map p.tree.memberFullName).length ≤ 2 ^ 32 := by
    rw [List.length_map, Program.entryPoints, List.length_mergeSort]
    calc _ ≤ p.tree.handles.length := List.length_filter_le _ _
      _ ≤ p.tree.ids.length := p.tree.length_handles_le
      _ ≤ 2 ^ 32 := length_le_of_nodup h.derives.ids
  rw [h.memberIds] at he
  exact MemberIdTable.id_ofNames h.increasing_names hlength i e he

theorem ids_memberIds (h : man.Follows p plan g counts) :
    man.memberIds.entries.map (fun e ↦ e.id.toNat) = List.range p.entryPoints.length := by
  have hcount : man.memberIds.entries.length = p.entryPoints.length := by
    simpa using congrArg List.length h.fullName_memberIds
  refine List.ext_getElem (by simpa using hcount) fun i hi _ ↦ ?_
  rw [List.getElem_map, List.getElem_range]
  exact h.id_memberIds i _ (List.getElem?_eq_getElem _)

theorem nodup_entryPoints (h : man.Follows p plan g counts) :
    (man.entryPoints.map EntryPointInfo.fullName).Nodup := by
  have hrecords := congrArg (List.map Prod.snd) h.entryPoints
  rw [List.map_map, List.map_map] at hrecords
  have hsame : man.entryPoints.map EntryPointInfo.fullName =
      man.memberIds.entries.map MemberId.fullName := hrecords
  rw [hsame]
  exact nodup_of_increasing h.increasing_memberIds

/-- A component that does not invoke itself has an instance for every slot of its proxy. -/
theorem length_slots (h : man.Follows p plan g counts) {m : MemberPlan} {c : Component} {q : Proxy}
    (hm : m ∈ plan.components) (hdemand : plan.demand m < 2 ^ 32) (hc : c ∈ man.components)
    (hcm : c.name = m.fullName) (hself : c.name ∉ c.invocations.map OutgoingInvocation.target)
    (hq : q ∈ man.proxies) (hqc : q.target = c.name) :
    q.slots.length = c.instanceCount.toNat := by
  have hsame {m' : MemberPlan} (hm' : m' ∈ plan.components) (heq : m'.fullName = m.fullName) :
      m' = m := List.inj_on_of_nodup_map (nodup_of_increasing h.derives.increasing) hm' hm heq
  obtain ⟨m₁, hm₁, hc₁⟩ := exists_of_mem_forall₂ h.components hc
  obtain rfl := hsame hm₁ (hc₁.name.symm.trans hcm)
  obtain ⟨m₂, hm₂, c₂, hc₂, rfl⟩ := h.exists_of_mem_proxies hq
  obtain rfl := hsame hm₂ (hc₂.name.symm.trans (hqc.trans hcm))
  rw [(h.derives.slots_proxy hm hc₂).length_eq, hc₁.instances]
  exact h.derives.length_eq_instances hm (hc₁.slotsFor_eq_zero hself) hdemand

theorem wired (h : man.Follows p plan g counts) : man.Wired p plan := by
  have hd := h.derives
  refine
    { sorted := h.increasing
      planned := map_eq_of_forall₂ (h.components.imp fun m c hc ↦ ?_)
      proxies := ?_
      distinct := fun q hq ↦ ?_
      slots := fun q hq s ↦ ?_
      external := fun c hc ↦ ?_
      targets := fun c hc ↦ ?_
      served := ⟨fun q hq ↦ ?_, fun c hc ↦ ?_⟩
      ids := ⟨h.fullName_memberIds, h.increasing_memberIds, h.ids_memberIds⟩
      entryPoints := h.entryPoints
      component := fun name c ↦ searchSorted_eq_some h.increasing
      proxy := fun name q ↦ searchSorted_eq_some h.increasing_proxies
      entryPoint := fun name e ↦ find?_eq_some_of_nodup h.nodup_entryPoints
      idOf := fun name id ↦ MemberIdTable.idOf_eq_some h.increasing_memberIds
      nameOf := fun name id ↦ MemberIdTable.nameOf_eq_some h.id_memberIds
      balanced := fun m hm hdemand c hc hcm hself q hq hqc ↦
        h.length_slots hm hdemand hc hcm hself hq hqc }
  · rw [hc.name, hc.instances, hc.invocations]
  · rw [h.proxies, List.map_map]
    rfl
  · obtain ⟨m, hm, c, hc, rfl⟩ := h.exists_of_mem_proxies hq
    exact (hd.slots_proxy hm hc).nodup_iff.2 (hd.nodup_slotsOf hm)
  · obtain ⟨m, hm, c, hc, rfl⟩ := h.exists_of_mem_proxies hq
    exact hd.mem_slots_proxy h.components hm hc s
  · obtain ⟨m, hm, hc⟩ := exists_of_mem_forall₂ h.components hc
    rw [hc.name]
    exact hd.fullName_ne_external hm
  · obtain ⟨m, hm, hc⟩ := exists_of_mem_forall₂ h.components hc
    refine ⟨hc.nodup_targets, fun i hi ↦ ?_⟩
    obtain ⟨m', hm', htarget⟩ := hd.exists_target hm (hc.mem_invocations.1 hi)
    rw [h.names_eq, ← htarget]
    exact List.mem_map_of_mem hm'
  · obtain ⟨m, hm, c, hc, rfl⟩ := h.exists_of_mem_proxies hq
    rw [← List.length_pos_iff, (hd.slots_proxy hm hc).length_eq]
    exact Nat.lt_of_lt_of_le (hd.demand_pos hm) (hd.demand_le_length hm)
  · obtain ⟨m, hm, hc⟩ := exists_of_mem_forall₂ h.components hc
    rw [hc.instances, UInt32.lt_iff_toNat_lt]
    exact hd.instances_pos hm

end Follows

end Manifest

namespace SyntaxTree

/-- Sorting changes nothing, since the plan lists its members by name. -/
theorem follows_assemble {p : Program} {plan : CallPlan} {g : CallGraph}
    {counts : List (MemberHandle × UInt32)} {components : List Component} {d : Description}
    (hd : plan.Derives p p.entryPoints g counts)
    (hr : List.Forall₂ MemberPlan.Realizes plan.components components)
    (h : p.assemble plan components (plan.proxies components) = .ok d) :
    d.manifest.Follows p plan g counts := by
  obtain ⟨hcomponents, hproxies, hmemberIds, hinfos⟩ := Program.assemble_eq_ok h
  have hname : components.map Component.name = plan.components.map MemberPlan.fullName :=
    map_eq_of_forall₂ (hr.imp fun _ _ hc ↦ hc.name)
  have hincreasing : components.Pairwise fun a b ↦ a.name < b.name :=
    List.pairwise_map.1 (hname ▸ List.pairwise_map.2 hd.increasing)
  have hproxy : (components.map plan.proxy).Pairwise fun a b ↦ a.target < b.target :=
    List.pairwise_map.2 hincreasing
  rw [mergeSort_of_increasing hincreasing] at hcomponents
  rw [CallPlan.proxies, mergeSort_of_increasing hproxy, mergeSort_of_increasing hproxy] at hproxies
  rw [hd.entryPoints_eq] at hmemberIds
  refine ⟨hd, hcomponents ▸ hr, hcomponents ▸ hproxies, hmemberIds, ?_⟩
  exact map_eq_of_forall₂ (hinfos.imp fun _ _ hi ↦ Program.entryPointInfo_eq hi)

/-- The manifest of generated hardware is wired as it is planned. -/
theorem wired_run {types : List TypeDecl} {pool : Pool} {config : Config} {identity : String}
    {cancelled : Bool} {d : Description} (hpool : pool.Collects)
    (hsize : (ofTypes types).ids.length ≤ 2 ^ 32)
    (h : (ofTypes types).run pool config identity cancelled = .ok d) :
    ∃ p plan, Program.prepare (.ofTypes types) config identity = .ok p ∧
      CallPlan.ofProgram p p.entryPoints = .ok plan ∧ d.manifest.Wired p plan := by
  obtain ⟨p, plan, components, hp, hplan, hall, hassemble⟩ := run_eq_ok hpool h
  obtain ⟨hids, hnames⟩ := Program.distinct_of_prepare hsize hp
  obtain ⟨g, counts, hd⟩ := CallPlan.exists_derives hids hnames hplan
  have hrealizes : List.Forall₂ MemberPlan.Realizes plan.components components :=
    hall.imp fun _ _ hc ↦ Lowering.realizes_component hc
  exact ⟨p, plan, hp, hplan, (follows_assemble hd hrealizes hassemble).wired⟩

end SyntaxTree

theorem wired_sharedCalls : ∃ d,
    (SyntaxTree.ofTypes sharedCalls).run .single
      { device := "Zynq-7020", instanceBounds := [⟨"Work.D", 5⟩] } "" false = .ok d ∧
    ∃ p plan, Program.prepare (.ofTypes sharedCalls)
        { device := "Zynq-7020", instanceBounds := [⟨"Work.D", 5⟩] } "" = .ok p ∧
      CallPlan.ofProgram p p.entryPoints = .ok plan ∧ d.manifest.Wired p plan := by
  have hsize : (SyntaxTree.ofTypes sharedCalls).ids.length ≤ 2 ^ 32 := by decide +kernel
  have hcheck : Synthesis.check (do
      let p ← Program.prepare (.ofTypes sharedCalls)
        { device := "Zynq-7020", instanceBounds := [⟨"Work.D", 5⟩] } ""
      let plan ← CallPlan.ofProgram p [⟨0, 0⟩]
      return (p, plan, ← plan.components.mapM fun m ↦ (⟨p, plan, m⟩ : Lowering).component))
      (fun x ↦ (x.1.tree.handles.filter fun h ↦
        x.1.tree.isEntryPoint (x.1.tree.declaringType h) (x.1.tree.method h) &&
          x.1.admits (x.1.tree.memberFullName h)) = [⟨0, 0⟩]) = true := by decide +kernel
  obtain ⟨⟨p, plan, components⟩, hresult, hcheck⟩ := Synthesis.check_eq_true.1 hcheck
  obtain ⟨p', hp, hresult⟩ := Synthesis.bind_eq_ok.1 hresult
  obtain ⟨plan', hplan, hresult⟩ := Synthesis.bind_eq_ok.1 hresult
  obtain ⟨components', hcomponents, hresult⟩ := Synthesis.bind_eq_ok.1 hresult
  obtain ⟨rfl, hparts⟩ := Prod.mk.inj (Except.ok.inj hresult)
  obtain ⟨rfl, rfl⟩ := Prod.mk.inj hparts
  have hselected := of_decide_eq_true hcheck
  have hentries : p'.entryPoints = [⟨0, 0⟩] := by
    rw [Program.entryPoints, hselected, List.mergeSort_singleton]
  have hhandles : [⟨0, 0⟩] ⊆ p'.tree.handles := by
    rw [← hselected]
    exact List.filter_subset_self _
  obtain ⟨g, -, hfollows⟩ := (CallPlan.meets_ofProgram hhandles).1 plan' hplan
  have hnames := map_eq_of_forall₂ ((Synthesis.forall₂_of_mapM hcomponents).imp fun _ _ hc ↦
    (Lowering.realizes_component hc).name)
  obtain ⟨d, hd⟩ := Program.exists_assemble hfollows hnames (plan'.proxies components')
  have hrun : (SyntaxTree.ofTypes sharedCalls).run .single
      { device := "Zynq-7020", instanceBounds := [⟨"Work.D", 5⟩] } "" false = .ok d := by
    unfold SyntaxTree.run
    rw [hp, Synthesis.ok_bind, hentries]
    change (CallPlan.ofProgram p' [⟨0, 0⟩] >>= _) = _
    rw [hplan, Synthesis.ok_bind]
    change ((plan'.components.mapM fun m ↦ (⟨p', plan', m⟩ : Lowering).component) >>= _) = _
    rw [hcomponents, Synthesis.ok_bind]
    exact hd
  exact ⟨d, hrun, SyntaxTree.wired_run Pool.collects_single hsize hrun⟩

end Fabric
