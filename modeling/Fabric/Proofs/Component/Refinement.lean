import Fabric.Proofs.Component.Execution
import Fabric.Proofs.Source.Calls
import Fabric.Proofs.Synthesis.Consistent
import Fabric.Proofs.Synthesis.Planned

namespace Fabric

theorem lookup_of_mem {α β : Type} [BEq α] [LawfulBEq α] {entries : List (α × β)} {p : α × β}
    (hn : (entries.map Prod.fst).Nodup) (hp : p ∈ entries) : entries.lookup p.1 = some p.2 := by
  induction entries with
  | nil => exact nomatch hp
  | cons q rest ih =>
    obtain ⟨hq, hn⟩ := List.nodup_cons.1 hn
    rcases List.mem_cons.1 hp with rfl | hp
    · exact List.lookup_cons_self
    · have hne : p.1 ≠ q.1 := fun he ↦ hq (he ▸ List.mem_map_of_mem hp)
      rw [List.lookup_cons, beq_eq_false_iff_ne.2 hne]
      exact ih hn hp

namespace MethodDecl

variable {m : MethodDecl}

theorem scope_type? (h : m.IsScalar) {p : String × TypeRef} (hp : p ∈ m.locals) :
    m.scope.type? p.1 = p.2.scalarHardware? := by
  unfold scope
  dsimp only
  rw [lookup_of_mem h.names hp, Option.bind_some]

theorem types_scope (h : m.IsScalar) {s : Stmt} (hs : m.body = some s) : m.scope.Types s := by
  intro p hp
  refine scope_type? h (List.mem_append_right _ ?_)
  rw [hs]
  simpa using hp

theorem runIn_simple {V : Type} (I : Interpretation V) (h : m.IsSimple) (limit : Nat)
    (arguments : String → V) (σ : Store V) :
    m.runIn I (.simple I m.scope) limit arguments σ = m.run I limit arguments σ := by
  unfold runIn run
  cases hb : m.body with
  | none => rfl
  | some s => rw [Option.bind_some, Option.bind_some, (h.body s hb).run_eq]

end MethodDecl

namespace Lowering

variable {V : Type} {I : Interpretation V} {l : Lowering} {c : Component}

theorem pin_eq {p : Parameter} {q : ComponentPin} (h : l.pin p = .ok q) :
    q.name = p.name ∧ l.parameterType l.member.fullName p = .ok q.type := by
  obtain ⟨type, htype, h⟩ := Synthesis.bind_eq_ok.1 h
  obtain rfl := Except.ok.inj h
  exact ⟨rfl, htype⟩

theorem exists_pin_eq {parameters : List Parameter} {pins : List ComponentPin}
    (h : List.Forall₂ (fun p q ↦ l.pin p = .ok q) parameters pins) {q : ComponentPin}
    (hq : q ∈ pins) : ∃ p ∈ parameters, l.pin p = .ok q := by
  induction h with
  | nil => exact nomatch hq
  | @cons p q' parameters pins hpin _ ih =>
    rcases List.mem_cons.1 hq with rfl | hq
    · exact ⟨p, List.mem_cons_self, hpin⟩
    · obtain ⟨r, hr, hrq⟩ := ih hq
      exact ⟨r, List.mem_cons_of_mem _ hr, hrq⟩

theorem store_takeParameters {parameters : List Parameter} {pins : List ComponentPin}
    (h : List.Forall₂ (fun p q ↦ l.pin p = .ok q) parameters pins) (inputs : SignalRef → V)
    (m : Memory V) : (m.takeParameters inputs pins).store =
      parameters.foldl (fun σ p ↦ σ.set p.name (inputs (.own (.parameter p.name)))) m.store := by
  induction h generalizing m with
  | nil => rfl
  | @cons p q parameters pins hpin _ ih =>
    refine (ih _).trans ?_
    rw [List.foldl_cons, ← (pin_eq hpin).1]
    rfl

theorem scope_parameter (hscalar : (l.program.tree.method l.member.handle).IsScalar)
    (h : List.Forall₂ (fun p q ↦ l.pin p = .ok q)
      (l.program.tree.method l.member.handle).parameters c.parameters) :
    ∀ q ∈ c.parameters, (l.program.tree.method l.member.handle).scope.type? q.name =
      some q.type := by
  intro q hq
  obtain ⟨p, hp, hpin⟩ := exists_pin_eq h hq
  obtain ⟨hname, htype⟩ := pin_eq hpin
  have hmem : (p.name, p.type) ∈ (l.program.tree.method l.member.handle).locals :=
    List.mem_append_left _ (List.mem_map_of_mem hp)
  rw [hname, MethodDecl.scope_type? hscalar hmem]
  exact TypeRef.hardware_scalar htype (hscalar.parameters p hp)

theorem scope_result {h : MemberHandle} (hscalar : (l.program.tree.method h).IsScalar)
    {returnType : Option HwType} (ht : l.resultType h = .ok returnType) :
    returnType = (l.program.tree.method h).scope.result := by
  unfold resultType at ht
  unfold MethodDecl.scope
  dsimp only
  have hreturn := hscalar.returnType
  cases hr : (l.program.tree.method h).returnType with
  | void =>
    rw [hr] at ht
    exact (Except.ok.inj ht).symm
  | bool | int =>
    rw [hr] at ht
    exact (Except.ok.inj ht).symm
  | _ =>
    rw [hr] at hreturn
    exact nomatch hreturn

theorem follows_runIn (h : l.component = .ok c) (hsize : c.states.length ≤ 2 ^ 32)
    (hscalar : (l.program.tree.method l.member.handle).IsScalar) {calls : List NodeId}
    {W : View I ((l.program.tree.method l.member.handle).scope.own calls)}
    (hW : ∀ m, W.shows m m.store) {E : Meaning V} (values : Expr → Prop) (x : Execution I c.machine)
    (m : Memory V) (hstart : x.config 0 = ⟨1, 0, m⟩) (limit : Nat)
    (hfits : ∀ code ∈ (l.program.tree.method l.member.handle).body,
      code.Fits l (c.interface l.program)
        ((l.program.tree.method l.member.handle).scope.own calls) values True)
    (hvalues : ∀ z : Draft, (c.interface l.program).Sees l →
      c.machine.Realizes (Draft.number z.nextState) z.code → ∀ source, values source →
        Delivered l (l.expand (l.stmt noExpansion)) (c.interface l.program) W x
          (Draft.number z.nextState) z E source) :
    match (l.program.tree.method l.member.handle).runIn I E limit
      (fun p ↦ x.inputs 0 (.own (.parameter p))) m.store with
    | some σ => ∃ t, x.Reaches c.finishedState t ∧ W.shows (x.config t).memory σ
    | none => ∀ t < limit, (x.config t).state ≠ c.finishedState := by
  obtain ⟨code, d, hcode, hpins, hresult, hbody, hdeclarations, hstates, hinvocations⟩ :=
    component_eq h
  let Γ := c.interface l.program
  have hΓ : Γ.Sees l := ⟨rfl, hinvocations⟩
  have hM := Draft.realizes_complete hstates hsize
  have hpins := Synthesis.forall₂_of_mapM hpins
  have htypes := scope_parameter hscalar hpins
  have hreturn := scope_result hscalar hresult
  have hfits := hfits code hcode
  have hcovers : Γ.Covers d := by
    unfold Interface.Covers
    exact hdeclarations ▸ List.Subset.refl _
  obtain ⟨B, C, R, he⟩ := evolves_body hΓ hfits.grouped hbody
  obtain ⟨hproper, hloops, hexpanded, hreturns⟩ := proper_begun (hcovers.mono he.toGrows)
  obtain ⟨hproper', -⟩ := Draft.Proper.evolve he hcovers hproper
  have hloops : d.loops = [] := by
    rw [he.loops]
    exact congrArg (List.modifyHead _) hloops
  have hexpanded' : d.frame.isExpanded = false := by
    rw [he.frame]
    exact hexpanded
  let S := (l.program.tree.method l.member.handle).scope
  have hrefines : Refines l (l.expand (l.stmt noExpansion)) Γ W x (Draft.number d.nextState) d
      (some limit) code (code.runIn I S E limit) :=
    refines_stmt x limit hM hΓ (sound_expandBody hΓ) (hvalues d hΓ hM) (fun _ ↦ rfl) code hfits
  obtain ⟨hplain, hlacks⟩ := plain_begun calls htypes hreturn
  have hopen : (l.begun c).isClosed = false := (stands_begun htypes hreturn hstart 0).opened
  have hfollows := (hrefines hbody hopen hplain (hlacks _)).2 hproper hcovers (.refl d 0)
    (stands_begun htypes hreturn hstart d.nextState) (hW _)
  rw [store_takeParameters hpins] at hfollows
  unfold MethodDecl.runIn
  rw [hcode, Option.bind_some]
  dsimp only
  split
  next σ hrun =>
    obtain ⟨⟨o, σ'⟩, hsome, rfl⟩ := Option.map_eq_some_iff.1 hrun
    rw [hsome] at hfollows
    obtain ⟨t, m', hshows, hworks, hexits⟩ := hfollows
    have hend : ∃ t', x.Works (Draft.number d.nextState) 0 t' ∧
        x.Enters (Draft.number d.nextState) t' .finished m' := by
      cases o with
      | normal =>
        obtain ⟨t', hworks', henters⟩ := Execution.Stands.finishes hM hexits hproper'
        exact ⟨t', hworks.trans hworks', henters⟩
      | returned =>
        have hreturned : x.Returned (Draft.number d.nextState) t d m' := hexits
        unfold Execution.Returned at hreturned
        rw [hexpanded', if_neg Bool.false_ne_true] at hreturned
        exact ⟨t, hworks, hreturned⟩
      | broke | continued =>
        obtain ⟨y, hy, -⟩ := hexits
        rw [hloops] at hy
        cases hy
    obtain ⟨t', hworks', henters⟩ := hend
    obtain ⟨hreaches, hmemory⟩ := henters.reaches hstates hworks'
    exact ⟨t', hreaches, hmemory ▸ hshows⟩
  next hrun =>
    have hnone := Option.map_eq_none_iff.1 hrun
    rw [hnone] at hfollows
    obtain ⟨n, hn, t', hle, hworks⟩ := hfollows
    obtain rfl := Option.some.inj hn
    intro t ht
    rw [Draft.finishedState_eq hstates]
    exact hworks.ne t (Nat.zero_le t) (by omega)

theorem follows_run (h : l.component = .ok c) (hsize : c.states.length ≤ 2 ^ 32)
    (hsimple : (l.program.tree.method l.member.handle).IsSimple) (x : Execution I c.machine)
    (m : Memory V) (hstart : x.config 0 = ⟨1, 0, m⟩) (limit : Nat) :
    match (l.program.tree.method l.member.handle).run I limit
      (fun p ↦ x.inputs 0 (.own (.parameter p))) m.store with
    | some σ => ∃ t, x.Reaches c.finishedState t ∧ (x.config t).memory.store = σ
    | none => ∀ t < limit, (x.config t).state ≠ c.finishedState := by
  rw [← MethodDecl.runIn_simple I hsimple]
  refine follows_runIn h hsize hsimple.isScalar (W := .own I _) (fun _ ↦ rfl)
    (Expr.IsSimpleBeside []) x m hstart limit (fun code hcode ↦ ?_) fun z _ _ source hs ↦ .simple hs
  have hsimple' := hsimple.body code hcode
  exact ⟨hsimple'.uses.imp (fun _ ↦ .of_nil) fun _ ↦ .of_nil,
    MethodDecl.types_scope hsimple.isScalar hcode, fun _ _ _ ↦ trivial,
    fun _ ↦ hsimple'.grouped l.program, by simp [hsimple'.callIds]⟩

/-- The machine of a component reaches its last state exactly if the method ends, and then with the
same variables and the same result. -/
theorem reaches_finished_iff (h : l.component = .ok c) (hsize : c.states.length ≤ 2 ^ 32)
    (hsimple : (l.program.tree.method l.member.handle).IsSimple) (x : Execution I c.machine)
    (m : Memory V) (hstart : x.config 0 = ⟨1, 0, m⟩) (σ : Store V) :
    (l.program.tree.method l.member.handle).Ends I (fun p ↦ x.inputs 0 (.own (.parameter p)))
      m.store σ ↔ ∃ t, x.Reaches c.finishedState t ∧ (x.config t).memory.store = σ := by
  refine ⟨fun ⟨limit, hrun⟩ ↦ ?_, fun ⟨t, hreaches, hstore⟩ ↦ ⟨t + 1, ?_⟩⟩
  · have hfollows := follows_run h hsize hsimple x m hstart limit
    rwa [hrun] at hfollows
  · have hfollows := follows_run h hsize hsimple x m hstart (t + 1)
    split at hfollows
    next hrun =>
      obtain ⟨t', hreaches', hstore'⟩ := hfollows
      rw [hreaches.unique hreaches'] at hstore
      rw [hrun, ← hstore, ← hstore']
    next => exact absurd hreaches.1 (hfollows t (Nat.lt_succ_self t))

end Lowering

/-- The execution of a machine from a configuration under inputs that do not change. -/
def Execution.steady {V ι : Type} (I : Interpretation V) (M : Machine ι) (inputs : SignalRef → V)
    (start : Configuration ι V) : Execution I M where
  inputs := fun _ ↦ inputs
  config := fun n ↦ (M.tick I inputs)^[n] start
  step := fun n ↦ Function.iterate_succ_apply' _ n start

/-- Integers, with which every operator but the three that the method has gives zero. -/
def Interpretation.counting : Interpretation Int where
  bool := fun b ↦ if b then 1 else 0
  int := fun n _ ↦ n.toInt
  unary := fun _ _ ↦ 0
  binary := fun op a b _ ↦
    match op with
    | .sub => a - b
    | .gt => if b < a then 1 else 0
    | .eq => if a = b then 1 else 0
    | _ => 0
  index := fun _ _ ↦ 0
  update := fun a _ _ ↦ a
  resize := fun a _ _ ↦ a
  truth := fun a ↦ a ≠ 0

def countdown : MethodDecl :=
  let x : Expr := .getParameter 0 "x"
  { name := "Down", parameters := [⟨"x", .int 8 true⟩], returnType := .int 8 true
    body := some (.block 0
      [.whileLoop 0 (.binary 0 .gt x (.literal 0 (.int 0 8 true))) (.block 0
        [.branch 0 (.binary 0 .eq x (.literal 0 (.int 7 8 true))) (.breakLoop 0) none,
         .assign 0 (.toParameter "x") (.binary 0 .sub x (.literal 0 (.int 1 8 true)))]),
       .ret 0 (some x)]) }

theorem isSimple_countdown : countdown.IsSimple := by
  refine ⟨fun s hs ↦ ?_, ?_, .inr rfl, by decide⟩
  · obtain rfl := Option.some.inj hs
    simp [Stmt.IsSimple, Expr.IsSimple, Stmt.nodes, Stmt.nodesList, Stmt.nodesOption, Stmt.exprs,
      Expr.nodes]
  · simp [countdown, TypeRef.scalarHardware?]

def countdownLowering : Lowering where
  program :=
    { identity := "", tree := ⟨[{ fullName := "T", methods := [countdown] }]⟩
      config := { device := "Nexys A7-100T" }, arrays := ⟨.empty⟩
      timing := ⟨CatalogDevice.nexys.device, CatalogDevice.nexys.speed.report⟩ }
  plan := ⟨.empty, [], [⟨0, 0⟩], ⟨.empty⟩⟩
  member := ⟨⟨0, 0⟩, "T.Down(i8)", 1, true, .empty⟩

/-- The machine of `countdown` ends exactly as the method does, from every value of its
parameter. -/
theorem reaches_finished_countdown : ∃ c, countdownLowering.component = .ok c ∧
    c.states.length = 8 ∧ countdown.IsSimple ∧ ∀ (n : Int) (m : Memory Int) (σ : Store Int),
      countdown.Ends .counting (fun _ ↦ n) m.store σ ↔
        ∃ t, (Execution.steady .counting c.machine (fun _ ↦ n) ⟨1, 0, m⟩).Reaches
          c.finishedState t ∧
        ((Execution.steady .counting c.machine (fun _ ↦ n) ⟨1, 0, m⟩).config t).memory.store = σ := by
  have hcheck : Synthesis.check countdownLowering.component
      (fun c ↦ c.states.length = 8) = true := by decide +kernel
  obtain ⟨c, hc, hlength⟩ := Synthesis.check_eq_true.1 hcheck
  have hlength := of_decide_eq_true hlength
  refine ⟨c, hc, hlength, isSimple_countdown, fun n m σ ↦ ?_⟩
  exact Lowering.reaches_finished_iff hc (by omega) isSimple_countdown
    (Execution.steady .counting c.machine (fun _ ↦ n) ⟨1, 0, m⟩) m rfl σ

end Fabric
