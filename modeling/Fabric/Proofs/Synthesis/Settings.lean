import Fabric.Proofs.Calls.Demand
import Fabric.Proofs.Config.Canonical
import Fabric.Proofs.Construction.Settings
import Fabric.Proofs.Synthesis.Run

namespace Fabric

namespace Config.SameSettings

variable {c c' : Config}

theorem instanceTable_eq (h : c.SameSettings c') :
    InstanceTable.ofConfig c = InstanceTable.ofConfig c' := by
  rw [InstanceTable.ofConfig, InstanceTable.ofConfig, InstanceTable.mk.injEq]
  refine Dictionary.ext_get? fun start ↦ ?_
  have hcounts (c : Config) :=
    c.get?_ofList_bounds (fun max ↦ (⟨max, false⟩ : InstanceCount)) start
  rw [hcounts, hcounts, h.bounds]

theorem arrayTable_eq (h : c.SameSettings c') : ArrayTable.ofConfig c = ArrayTable.ofConfig c' := by
  rw [ArrayTable.ofConfig, Dictionary.ext_get? h.arrayLengths, ArrayTable.ofConfig]

theorem timing_eq (h : c.SameSettings c') (hclock : c.clockFrequency = c'.clockFrequency) :
    TimingModel.ofConfig c = TimingModel.ofConfig c' := by
  rw [TimingModel.ofConfig, TimingModel.ofConfig, h.device, hclock]

end Config.SameSettings

namespace Program

variable (p : Program) (c : Config)

theorem collectCalls_under (parents : ParentIndex) (depth : Nat)
    (found : List (MemberHandle × CallSummary)) (h : MemberHandle) :
    (p.under c).collectCalls parents depth found h = p.collectCalls parents depth found h := by
  induction depth generalizing found h with
  | zero => rfl
  | succ depth ih =>
    simp only [collectCalls, ih]
    rfl

theorem callGraph_under (entries : List MemberHandle) :
    CallGraph.ofEntryPoints (p.under c) entries = CallGraph.ofEntryPoints p entries := by
  have hcollect : (p.under c).collectCalls = p.collectCalls := by
    funext parents depth found h
    exact p.collectCalls_under c ..
  simp only [CallGraph.ofEntryPoints, hcollect]
  rfl

variable {p c}

theorem admits_under (h : p.config.SameSettings c) (name : String) :
    (p.under c).admits name = p.admits name := by
  have hempty : c.entryPointStarts.isEmpty = p.config.entryPointStarts.isEmpty := by
    rw [Bool.eq_iff_iff]
    simp only [List.isEmpty_iff, List.eq_nil_iff_forall_not_mem, h.entryPointStarts]
  have hany (f : String → Bool) : c.entryPointStarts.any f = p.config.entryPointStarts.any f := by
    rw [Bool.eq_iff_iff]
    simp only [List.any_eq_true, h.entryPointStarts]
  rw [admits, admits, ← hempty, ← hany]
  rfl

theorem entryPoints_under (h : p.config.SameSettings c) :
    (p.under c).entryPoints = p.entryPoints := by
  have hadmits : (p.under c).admits = p.admits := funext (admits_under h)
  rw [entryPoints, hadmits]
  rfl

theorem plan_under (h : p.config.SameSettings c) (entries : List MemberHandle) :
    CallPlan.ofProgram (p.under c) entries = CallPlan.ofProgram p entries := by
  rw [CallPlan.ofProgram, CallPlan.ofProgram, callGraph_under, h.instanceTable_eq]
  rfl

theorem assemble_under (h : p.config.SameSettings c) (plan : CallPlan) (components : List Component)
    (proxies : List Proxy) :
    (p.under c).assemble plan components proxies = p.assemble plan components proxies := by
  rw [assemble, assemble, h.generationMode]
  rfl

end Program

namespace Pool

theorem Collects.eq_or {pool pool' : Pool} (hpool : pool.Collects) (hpool' : pool'.Collects)
    (job : MemberPlan → Synthesis Component) (members : List MemberPlan) :
    pool job members = pool' job members ∨ ∃ m ∈ members, ∃ m' ∈ members, ∃ e e',
      job m = .error e ∧ job m' = .error e' ∧
        pool job members = .error e ∧ pool' job members = .error e' := by
  cases hjobs : pool job members with
  | ok components =>
    exact .inl ((hpool'.ok_iff ..).2 ((hpool.ok_iff ..).1 hjobs)).symm
  | error e =>
    cases hjobs' : pool' job members with
    | ok components =>
      rw [(hpool.ok_iff ..).2 ((hpool'.ok_iff ..).1 hjobs')] at hjobs
      cases hjobs
    | error e' =>
      obtain ⟨m, hm, he⟩ := hpool.error _ _ _ hjobs
      obtain ⟨m', hm', he'⟩ := hpool'.error _ _ _ hjobs'
      exact .inr ⟨m, hm, m', hm', e, e', he, he', rfl, rfl⟩

end Pool

namespace Program

variable (p : Program) (pool : Pool)

def MemberFails (e : SynthesisError) : Prop :=
  ∃ plan, CallPlan.ofProgram p p.entryPoints = .ok plan ∧
    ∃ m ∈ plan.components, (⟨p, plan, m⟩ : Lowering).component = .error e

def describe : Synthesis Description := do
  if p.entryPoints.isEmpty then .error .noEntryPoints
  let plan ← CallPlan.ofProgram p p.entryPoints
  let components ← pool (fun m ↦ (⟨p, plan, m⟩ : Lowering).component) plan.components
  p.assemble plan components (plan.proxies components)

variable {p} in
theorem describe_under {c : Config} (h : p.config.SameSettings c) :
    (p.under c).describe pool = p.describe pool := by
  have hcomponent (plan : CallPlan) (m : MemberPlan) :
      (⟨p.under c, plan, m⟩ : Lowering).component = (⟨p, plan, m⟩ : Lowering).component :=
    (⟨p, plan, m⟩ : Lowering).component_under c
  simp only [describe, entryPoints_under h, plan_under h, hcomponent, assemble_under h]

variable {p pool} {pool' : Pool}

theorem describe_eq_error {plan : CallPlan} {e : SynthesisError}
    (hentries : p.entryPoints.isEmpty = false)
    (hplan : CallPlan.ofProgram p p.entryPoints = .ok plan)
    (h : pool (fun m ↦ (⟨p, plan, m⟩ : Lowering).component) plan.components = .error e) :
    p.describe pool = .error e := by
  unfold describe
  rw [hentries, hplan, Synthesis.ok_bind, h]
  rfl

theorem describe_eq_or (hpool : pool.Collects) (hpool' : pool'.Collects) :
    p.describe pool = p.describe pool' ∨ ∃ e e', p.MemberFails e ∧ p.MemberFails e' ∧ e ≠ e' ∧
      p.describe pool = .error e ∧ p.describe pool' = .error e' := by
  unfold describe MemberFails
  split
  · exact .inl rfl
  · cases hplan : CallPlan.ofProgram p p.entryPoints with
    | error e => exact .inl rfl
    | ok plan =>
      simp only [Synthesis.ok_bind]
      obtain heq | ⟨m, hm, m', hm', e, e', he, he', herror, herror'⟩ :=
        hpool.eq_or hpool' (fun m ↦ (⟨p, plan, m⟩ : Lowering).component) plan.components
      · exact .inl (by rw [heq])
      · rw [herror, herror']
        by_cases hsame : e = e'
        · exact .inl (by rw [hsame])
        · exact .inr ⟨e, e', ⟨plan, rfl, m, hm, he⟩, ⟨plan, rfl, m', hm', he'⟩, hsame, rfl, rfl⟩

end Program

namespace SyntaxTree

variable (t : SyntaxTree) (identity : String) (pool : Pool) {c c' : Config}

theorem run_eq_describe (c : Config) : t.run pool c identity false =
    Program.prepare t c identity >>= fun p ↦ p.describe pool := rfl

theorem resolve_eq_of_sameSettings (h : c.SameSettings c') : t.resolve c = t.resolve c' := by
  rw [resolve, resolve, h.arrayTable_eq]

theorem config_of_prepare {p : Program} (h : Program.prepare t c identity = .ok p) :
    p.config = c := by
  obtain ⟨timing, -, h⟩ := Synthesis.bind_eq_ok.1 h
  obtain ⟨resolved, -, h⟩ := Synthesis.bind_eq_ok.1 h
  obtain rfl := Except.ok.inj h
  rfl

theorem prepare_eq_map_under (h : c.SameSettings c')
    (htiming : TimingModel.ofConfig c = TimingModel.ofConfig c') :
    Program.prepare t c' identity = (Program.prepare t c identity).map (·.under c') := by
  rw [Program.prepare, Program.prepare, htiming, t.resolve_eq_of_sameSettings h]
  cases (TimingModel.ofConfig c').mapError SynthesisError.ofTimingError with
  | error e => rfl
  | ok timing =>
    cases (t.resolve c').mapError SynthesisError.ofResolveError with
    | error e => rfl
    | ok resolved => rfl

theorem run_eq_of_timing (h : c.SameSettings c')
    (htiming : TimingModel.ofConfig c = TimingModel.ofConfig c') :
    t.run pool c identity false = t.run pool c' identity false := by
  rw [run_eq_describe, run_eq_describe, t.prepare_eq_map_under identity h htiming]
  cases hp : Program.prepare t c identity with
  | error e => rfl
  | ok p =>
    obtain rfl := t.config_of_prepare identity hp
    exact (Program.describe_under pool h).symm

variable {t identity pool} {pool' : Pool}

theorem run_eq_or (hpool : pool.Collects) (hpool' : pool'.Collects) (c : Config) :
    t.run pool c identity false = t.run pool' c identity false ∨
      ∃ p e e', Program.prepare t c identity = .ok p ∧ p.MemberFails e ∧ p.MemberFails e' ∧ e ≠ e' ∧
        t.run pool c identity false = .error e ∧ t.run pool' c identity false = .error e' := by
  rw [run_eq_describe, run_eq_describe]
  cases hp : Program.prepare t c identity with
  | error e => exact .inl rfl
  | ok p =>
    exact (Program.describe_eq_or hpool hpool').imp_right fun ⟨e, e', h⟩ ↦ ⟨p, e, e', rfl, h⟩

theorem run_eq_ok_iff (hpool : pool.Collects) (hpool' : pool'.Collects) (c : Config)
    (d : Description) :
    t.run pool c identity false = .ok d ↔ t.run pool' c identity false = .ok d := by
  obtain heq | ⟨-, e, e', -, -, -, -, he, he'⟩ := run_eq_or hpool hpool' c
  · rw [heq]
  · rw [he, he']
    exact iff_of_false nofun nofun

/-- Two configurations with the same clock and the same canonical text give the same description or
the same error: the order of entries, entries that are overridden, caching and parallelism do not
show. Other workers give the same descriptions, and the same error unless two members fail with
different errors, of which they may find either. -/
theorem run_eq_of_canonicalText (t : SyntaxTree) (identity : String)
    (hclock : c.clockFrequency = c'.clockFrequency) (htext : c.canonicalText = c'.canonicalText) :
    (∀ pool, t.run pool c identity false = t.run pool c' identity false) ∧
      ∀ pool pool' : Pool, pool.Collects → pool'.Collects →
        (∀ d, t.run pool c identity false = .ok d ↔ t.run pool' c' identity false = .ok d) ∧
        (t.run pool c identity false = t.run pool' c' identity false ∨
          ∃ p e e', Program.prepare t c identity = .ok p ∧ p.MemberFails e ∧ p.MemberFails e' ∧
            e ≠ e' ∧ t.run pool c identity false = .error e ∧
              t.run pool' c' identity false = .error e') := by
  have h := Config.sameSettings_of_canonicalText htext
  have hsame (pool : Pool) : t.run pool c identity false = t.run pool c' identity false :=
    t.run_eq_of_timing identity pool h (h.timing_eq hclock)
  refine ⟨hsame, fun pool pool' hpool hpool' ↦ ?_⟩
  rw [← hsame pool']
  exact ⟨run_eq_ok_iff hpool hpool' c, run_eq_or hpool hpool' c⟩

/-- A list of bounds with an entry that is overridden, in another order, other starts of entry
points and other workers. -/
theorem run_sharedCalls_of_canonicalText :
    let c : Config :=
      { device := "Zynq-7020", instanceBounds := [⟨"Work.D", 5⟩, ⟨"Work.M", 1⟩]
        entryPointStarts := ["Work.", "Job"], clockFrequency := some "50 MHz" }
    let c' : Config :=
      { device := "Zynq-7020", instanceBounds := [⟨"Work.M", 1⟩, ⟨"Work.D", 2⟩, ⟨"Work.D", 5⟩]
        entryPointStarts := ["Job", "Work.", "Job"], clockFrequency := some "50 MHz"
        enableCaching := false, maxParallelism := 8 }
    let t := SyntaxTree.ofTypes sharedCalls
    c.clockFrequency = c'.clockFrequency ∧ c.canonicalText = c'.canonicalText ∧
      t.run .single c "" false = t.run .single c' "" false ∧
      Pool.single.Collects ∧ Pool.backwards.Collects ∧
      ∀ d, t.run .single c "" false = .ok d ↔ t.run .backwards c' "" false = .ok d := by
  intro c c' t
  have htext : c.canonicalText = c'.canonicalText := by decide +kernel
  have hclock : c.clockFrequency = c'.clockFrequency := rfl
  have hrun := run_eq_of_canonicalText t "" hclock htext
  exact ⟨hclock, htext, hrun.1 .single, Pool.collects_single, Pool.collects_backwards,
    (hrun.2 _ _ Pool.collects_single Pool.collects_backwards).1⟩

end SyntaxTree

def fieldReaders : List TypeDecl :=
  let member (name field : String) : MethodDecl :=
    { name := name, modifiers := { visibility := .pub, isVirtual := true }, parameters := []
      returnType := .i32, body := some (.ret 0 (some (.getField 0 ⟨"Work", field⟩))) }
  [{ fullName := "Work", visibility := .pub, methods := [member "First" "a", member "Second" "b"] }]

def Synthesis.unsupported? {α : Type} : Synthesis α → Option (String × String)
  | .error (.unsupported construct member) => some (construct, member)
  | _ => none

theorem Synthesis.eq_of_unsupported? {α : Type} {x : Synthesis α} {construct member : String}
    (h : x.unsupported? = some (construct, member)) : x = .error (.unsupported construct member) := by
  unfold unsupported? at h
  split at h
  · cases h
    rfl
  · cases h

/-- One worker that starts at the first member and one that starts at the last find different errors. -/
theorem exists_run_ne :
    let c : Config := { device := "Zynq-7020", maxParallelism := 1 }
    let c' : Config := { device := "Zynq-7020", maxParallelism := 2 }
    let t := SyntaxTree.ofTypes fieldReaders
    c.clockFrequency = c'.clockFrequency ∧ c.canonicalText = c'.canonicalText ∧
      Pool.single.Collects ∧ Pool.backwards.Collects ∧
      t.run .single c "" false =
        .error (.unsupported "field access `Work.a`" "Work.First()") ∧
      t.run .backwards c' "" false =
        .error (.unsupported "field access `Work.b`" "Work.Second()") ∧
      t.run .single c "" false ≠ t.run .backwards c' "" false := by
  intro c c' t
  have htext : c.canonicalText = c'.canonicalText := by decide +kernel
  have hcheck : Synthesis.check (do
      let p ← Program.prepare t c ""
      return (p, ← CallPlan.ofProgram p [⟨0, 0⟩, ⟨0, 1⟩])) (fun x ↦
        let job m := (⟨x.1, x.2, m⟩ : Lowering).component
        (x.1.tree.handles.filter fun h ↦
          x.1.tree.isEntryPoint (x.1.tree.declaringType h) (x.1.tree.method h) &&
            x.1.admits (x.1.tree.memberFullName h)) = [⟨0, 0⟩, ⟨0, 1⟩] ∧
        x.1.tree.memberFullName ⟨0, 0⟩ ≤ x.1.tree.memberFullName ⟨0, 1⟩ ∧
        (Pool.single job x.2.components).unsupported? =
          some ("field access `Work.a`", "Work.First()") ∧
        (Pool.backwards job x.2.components).unsupported? =
          some ("field access `Work.b`", "Work.Second()")) = true := by decide +kernel
  obtain ⟨⟨p, plan⟩, hresult, hcheck⟩ := Synthesis.check_eq_true.1 hcheck
  obtain ⟨p', hp, hresult⟩ := Synthesis.bind_eq_ok.1 hresult
  obtain ⟨plan', hplan, hresult⟩ := Synthesis.bind_eq_ok.1 hresult
  obtain ⟨rfl, rfl⟩ := Prod.mk.inj (Except.ok.inj hresult)
  obtain ⟨hselected, hle, hfirst, hlast⟩ := of_decide_eq_true hcheck
  have hentries : p'.entryPoints = [⟨0, 0⟩, ⟨0, 1⟩] := by
    rw [Program.entryPoints, hselected]
    exact List.mergeSort_of_pairwise (by simpa using hle)
  have hrun {pool : Pool} {e : SynthesisError}
      (h : pool (fun m ↦ (⟨p', plan', m⟩ : Lowering).component) plan'.components = .error e) :
      t.run pool c "" false = .error e := by
    rw [t.run_eq_describe, hp, Synthesis.ok_bind]
    refine Program.describe_eq_error ?_ ?_ h <;> rw [hentries]
    · rfl
    · exact hplan
  have hsingle := hrun (Synthesis.eq_of_unsupported? hfirst)
  have hbackwards := hrun (Synthesis.eq_of_unsupported? hlast)
  have hsettings := Config.sameSettings_of_canonicalText htext
  rw [t.run_eq_of_timing "" .backwards hsettings (hsettings.timing_eq rfl)] at hbackwards
  refine ⟨rfl, htext, Pool.collects_single, Pool.collects_backwards, hsingle, hbackwards, ?_⟩
  rw [hsingle, hbackwards]
  simp

end Fabric
