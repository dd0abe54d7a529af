import Fabric.Proofs.Calls.Plan
import Fabric.Proofs.Component.Refinement
import Fabric.Proofs.Source.Guarded

namespace Fabric

namespace Draft

variable {d : Draft} {name : String}

structure Reserves (d : Draft) (name : String) : Prop where
  plain : '.' ∉ name.toList
  unqualified : d.frame.qualifier = ""
  booleans : d.admits name .boolean = true

theorem firstVariant_of_plain (base : String) (type : HwType) (tries n : Nat)
    (h : '.' ∉ (d.firstVariant base type tries n).toList) :
    d.firstVariant base type tries n = base := by
  have hvariant (n : Nat) (h : '.' ∉ (variant base n).toList) : variant base n = base := by
    cases n with
    | zero => rfl
    | succ n =>
      refine absurd ?_ h
      simp [variant]
  induction tries generalizing n with
  | zero => exact hvariant n h
  | succ tries ih =>
    unfold firstVariant at h ⊢
    split
    next hadmits =>
      rw [if_pos hadmits] at h
      exact hvariant n h
    next hadmits =>
      rw [if_neg hadmits] at h
      exact ih (n + 1) h

theorem Reserves.eq_of_declare (h : d.Reserves name) {q : String} {type : HwType} {comment : String}
    (heq : (d.declare q type comment).1 = name) : q = name := by
  have hfirst : (d.declare q type comment).1 =
      d.firstVariant (d.frame.qualifier ++ q) type d.declarations.length 0 := by
    unfold declare
    dsimp only
    split <;> rfl
  rw [h.unqualified, String.empty_append] at hfirst
  rw [← heq, hfirst]
  refine (firstVariant_of_plain q type _ 0 ?_).symm
  rw [← hfirst, heq]
  exact h.plain

theorem Reserves.declare (h : d.Reserves name) (comment : String) :
    (d.declare name .boolean comment).1 = name := by
  have hfirst :
      d.firstVariant (d.frame.qualifier ++ name) .boolean d.declarations.length 0 = name := by
    rw [h.unqualified, String.empty_append]
    cases d.declarations.length with
    | zero => rfl
    | succ n => exact if_pos h.booleans
  unfold Draft.declare
  dsimp only
  split <;> exact hfirst

theorem declaredType?_addDeclaration (d : Draft) (x : String) (type : HwType) (comment : String) :
    (d.addDeclaration x type comment).declaredType? name =
      if x = name then some type else d.declaredType? name := by
  unfold declaredType? addDeclaration
  dsimp only
  rw [List.reverse_append, List.reverse_singleton, List.singleton_append, List.find?_cons]
  by_cases h : x = name <;> simp [h]

theorem Reserves.takeParameter (h : d.Reserves name) {q : ComponentPin}
    (hq : q.name = name → q.type = .boolean) : (d.takeParameter q).Reserves name := by
  let x := d.declare q.name q.type ("parameter " ++ q.name)
  have hsame : x.2.frame = d.frame := by
    simp only [x, Draft.declare]
    split <;> rfl
  refine ⟨h.plain, (congrArg Frame.qualifier hsame).trans h.unqualified, ?_⟩
  change x.2.admits name .boolean = true
  have hchosen : x.1 = name → q.name = name := h.eq_of_declare
  simp only [x, Draft.declare] at hchosen ⊢
  split
  next hnone =>
    rw [hnone] at hchosen
    unfold admits
    rw [declaredType?_addDeclaration]
    split
    next => rfl
    next declared hdeclared =>
      split at hdeclared
      next heq =>
        obtain rfl := Option.some.inj hdeclared
        simpa using hq (hchosen heq)
      next =>
        have hbooleans := h.booleans
        unfold admits at hbooleans
        rwa [hdeclared] at hbooleans
  next => exact h.booleans

end Draft

section

variable {V ι : Type} {I : Interpretation V} {M : Machine ι} {x : Execution I M}
  {name : DraftTarget → ι} {d : Draft} {t : Nat} {m : Memory V}

structure Draft.Supplied (d : Draft) (m : Memory V) (inputs : SignalRef → V) (n : String) :
    Prop where
  binding : d.binding? n = some (.variable n .boolean)
  value : m.values n = inputs (.own (.parameter n))

structure Draft.Begins (d d' : Draft) (m m' : Memory V) : Prop where
  results : d'.results = d.results
  frame : ∃ locals, d'.frame = { d.frame with locals := locals }
  driven : m'.driven = m.driven
  started : m'.started = m.started

theorem Draft.Begins.trans {d d' d'' : Draft} {m m' m'' : Memory V} (h : d.Begins d' m m')
    (h' : d'.Begins d'' m' m'') : d.Begins d'' m m'' := by
  obtain ⟨locals, hframe⟩ := h.frame
  obtain ⟨locals', hframe'⟩ := h'.frame
  refine ⟨h'.results.trans h.results, ⟨locals', ?_⟩, h'.driven.trans h.driven,
    h'.started.trans h.started⟩
  rw [hframe', hframe]

namespace Execution.Stands

theorem takeParameter (hs : x.Stands name t d m) (q : ComponentPin) :
    ∃ m', x.Stands name t (d.takeParameter q) m' ∧ d.Begins (d.takeParameter q) m m' ∧
      ∀ n, d.Reserves n → (q.name = n → q.type = .boolean) →
        q.name = n ∨ d.Supplied m (x.inputs t) n →
        (d.takeParameter q).Supplied m' (x.inputs t) n := by
  let c := d.declare q.name q.type ("parameter " ++ q.name)
  have hframe : c.2.frame = d.frame := by
    simp only [c, Draft.declare]
    split <;> rfl
  have hresults : c.2.results = d.results := by
    simp only [c, Draft.declare]
    split <;> rfl
  have hbound : x.Stands name t (d.declareLocal q.name q.type ("parameter " ++ q.name)) m :=
    hs.of_site Draft.site_declareLocal
  have htaken := hbound.push (.setVariable c.1 (.signal (.own (.parameter q.name))))
  refine ⟨_, htaken, ⟨hresults, ⟨_, congrArg (fun f ↦ { f with
    locals := (q.name, .variable c.1 q.type) :: c.2.frame.locals }) hframe⟩, rfl, rfl⟩, ?_⟩
  intro n hn htype hor
  have hbinding : (d.takeParameter q).binding? n =
      if n = q.name then some (.variable c.1 q.type) else d.binding? n := by
    change ((q.name, Binding.variable c.1 q.type) :: c.2.frame.locals).lookup n = _
    rw [List.lookup_cons, hframe]
    by_cases h : n = q.name
    · simp [h]
    · rw [if_neg h, beq_eq_false_iff_ne.2 h]
      rfl
  by_cases hq : q.name = n
  · have hchosen : c.1 = n := by
      simp only [c, hq, htype hq]
      exact hn.declare _
    refine ⟨?_, (if_pos hchosen.symm).trans (by rw [HwExpr.eval, hq])⟩
    rw [hbinding, if_pos hq.symm, hchosen, htype hq]
  · have hsupplied := hor.resolve_left hq
    have hchosen : n ≠ c.1 := fun heq ↦ hq (hn.eq_of_declare heq.symm)
    refine ⟨?_, (if_neg hchosen).trans hsupplied.value⟩
    rw [hbinding, if_neg (Ne.symm hq)]
    exact hsupplied.binding

theorem takeParameters (hs : x.Stands name t d m) (parameters : List ComponentPin) :
    ∃ m', x.Stands name t (parameters.foldl Draft.takeParameter d) m' ∧
      d.Begins (parameters.foldl Draft.takeParameter d) m m' ∧
      ∀ n, d.Reserves n → (∀ q ∈ parameters, q.name = n → q.type = .boolean) →
        n ∈ parameters.map ComponentPin.name ∨ d.Supplied m (x.inputs t) n →
        (parameters.foldl Draft.takeParameter d).Supplied m' (x.inputs t) n := by
  induction parameters generalizing d m with
  | nil =>
    refine ⟨m, hs, ⟨rfl, ⟨d.frame.locals, rfl⟩, rfl, rfl⟩, fun n _ _ hor ↦ ?_⟩
    exact hor.resolve_left List.not_mem_nil
  | cons q rest ih =>
    obtain ⟨m₁, hs₁, hbegins₁, hsupplied₁⟩ := hs.takeParameter q
    obtain ⟨m', hs', hbegins', hsupplied'⟩ := ih hs₁
    refine ⟨m', hs', hbegins₁.trans hbegins', fun n hn htypes hor ↦ ?_⟩
    obtain ⟨hq, hrest⟩ := List.forall_mem_cons.1 htypes
    refine hsupplied' n (hn.takeParameter hq) hrest ?_
    rw [List.map_cons, List.mem_cons] at hor
    rcases hor with (rfl | hmem) | hsupplied
    · exact .inr (hsupplied₁ _ hn hq (.inl rfl))
    · exact .inl hmem
    · exact .inr (hsupplied₁ n hn hq (.inr hsupplied))

end Execution.Stands

end

/-- A statement that returns the value of an expression and does nothing else. -/
inductive Stmt.Returns (e : Expr) : Stmt → Prop
  | ret {id : NodeId} : Returns e (.ret id (some e))
  | block {id : NodeId} {s : Stmt} : Returns e s → Returns e (.block id [s])

def Stmt.returned? : Stmt → Option Expr
  | .ret _ value => value
  | _ => none

theorem Stmt.returns_of_returned? {s : Stmt} {e : Expr} (h : s.returned? = some e) :
    s.Returns e := by
  cases s with
  | ret id value =>
    obtain rfl : value = some e := h
    exact .ret
  | _ => cases h

namespace Stmt.Returns

variable {e : Expr} {s : Stmt}

theorem exists_mem (h : s.Returns e) : ∃ t ∈ s.nodes, e ∈ t.exprs := by
  induction h with
  | @ret id => exact ⟨_, Stmt.mem_nodes_self _, by simp [Stmt.exprs]⟩
  | @block id s _ ih =>
    obtain ⟨t, ht, he⟩ := ih
    exact ⟨t, Stmt.nodes_subset_of_mem_children (by simp [Stmt.children]) ht, he⟩

theorem stmt_eq {l : Lowering} {expand : Expansion} {d : Draft} (h : s.Returns e)
    (ho : d.isClosed = false) : l.stmt expand s d = l.ret expand (some e) d := by
  induction h with
  | @ret id => rw [Lowering.stmt, if_neg (by simp [ho])]
  | @block id s _ ih =>
    rw [Lowering.stmt, if_neg (by simp [ho]), Lowering.stmtList, ih]
    cases l.ret expand (some e) d with
    | ok d => exact Lowering.stmtList.eq_def l expand [] d
    | error => rfl

end Stmt.Returns

theorem Lowering.value_boolean (l : Lowering) (expand : Expansion) (e : Expr) (d : Draft) :
    l.value expand e .boolean d = (do l.expr e (← l.prepare expand e d)) := by
  cases e <;> rfl

namespace Execution

variable {V ι : Type} {I : Interpretation V} {M : Machine ι} {x : Execution I M}
  {name : DraftTarget → ι} {z d d' : Draft} {Γ : Interface} {l : Lowering} {w : World V}

/-- The value of a boolean expression is returned, and all invocations that are left of it are made
before. -/
theorem Hosts.ret (hx : x.Hosts name z Γ l w) {expand : Expansion} (hexpand : expand.Sound Γ)
    {e : Expr} (hids : e.ids.Nodup) (he : e.IsLogic l) (hgroup : e.Grouped l.program)
    (hd : d.Logical l) (ho : d.isClosed = false) (htype : d.frame.returnType = some .boolean)
    (hvariable : d.frame.returnVariable = none) (hreturn : Γ.returnType = some .boolean)
    (h : l.ret expand (some e) d = .ok d') : ∃ d₁, d' = d₁.leave ∧
      x.Carries name z Γ True d d₁ True
        (fun m ↦ m.Rests I l.program ∧ d.Informed I l w m.values e)
        fun m m' ↦ m'.driven (.own .result) = some (I.bool (e.truth I l.program.tree w)) ∧
          (m'.started : Multiset (Started V)) = m.started + d.owed I l.program.tree w e := by
  obtain ⟨_, type, v, d₂, heq, hboolean, hvalue, rfl⟩ | ⟨-, hnone, -⟩ | ⟨_, _, -, hnone, -⟩ :=
    Lowering.ret_eq_ok h
  rotate_left
  · cases htype.symm.trans hnone
  · cases htype.symm.trans hnone
  obtain rfl := Option.some.inj heq
  obtain rfl := Option.some.inj (htype.symm.trans hboolean)
  have htarget : Lowering.returnTarget d = .signal (.own .result) := by
    rw [Lowering.returnTarget, hvariable]
  rw [htarget]
  rw [Lowering.value_boolean] at hvalue
  obtain ⟨d₁, h₁, h₂⟩ := Synthesis.bind_eq_ok.1 hvalue
  obtain ⟨made, hp⟩ := readies_prepareUpTo hx hexpand _ hids he hgroup hd ho h₁
  have hev := Evaluates.ofExpr (x := x) (Γ := Γ) (w := w) hx.boolean hx.realizes he hp.logical
    hp.carries.opened h₂
  have howed : d.owed I l.program.tree w e = made := by
    rw [hp.owed, Draft.owed_of_not_pending hev.settled, add_zero]
  have hboth := hp.carries.seq hev.carries (fun _ _ ↦ trivial) (fun _ _ hv ↦ hv) fun m m₁ _ hpost ↦
    hpost.2
  have hall := hboth.seq (Carries.emit hx.realizes hboth.opened
    (s := .drive (.own .result) (v.coerce .boolean)) (HwStmt.isPlain_own _ _) v.cost)
    (fun _ hv ↦ HwStmt.typed_drive (.result hreturn) (hv.coerce .boolean))
    (fun _ _ h ↦ h) fun _ _ _ _ ↦ trivial
  refine ⟨_, rfl, hall.conseq (fun h ↦ h) (fun _ h ↦ h) (fun _ h ↦ h) ?_⟩
  rintro m m' - ⟨m₂, ⟨m₁, ⟨hperforms, -⟩, hcomputes, hyields⟩, inputs, rfl⟩
  have hexec : HwStmt.exec I inputs (.drive (.own .result) (v.coerce .boolean)) m₂ =
      m₂.drive I (.own .result) (I.bool (e.truth I l.program.tree w)) := by
    rw [Lowered.coerce_self hev.type, HwStmt.drive, HwStmt.exec, hyields.eval]
  rw [hexec, howed]
  refine ⟨by simp [Memory.drive], ?_⟩
  rw [← hperforms.started, ← hcomputes.started]
  rfl

end Execution

namespace Lowering

variable {V : Type} {I : Interpretation V} {l : Lowering} {c : Component} {w : World V}

theorem parameterType_bool {callee : String} {p : Parameter} (hp : p.type = .bool) {type : HwType}
    (h : l.parameterType callee p = .ok type) : type = .boolean := by
  unfold parameterType at h
  rw [hp] at h
  exact (Except.ok.inj h).symm

theorem Supplies.pins {parameters : List ComponentPin}
    (h : (l.program.tree.method l.member.handle).parameters.mapM l.pin = .ok parameters)
    {n : String} (hn : l.Supplies n) :
    n ∈ parameters.map ComponentPin.name ∧ ∀ q ∈ parameters, q.name = n → q.type = .boolean := by
  obtain ⟨-, p, hp, rfl, htypes⟩ := hn
  have hpins := Synthesis.forall₂_of_mapM h
  refine ⟨?_, fun q hq hname ↦ ?_⟩
  · rw [map_eq_of_forall₂ (hpins.imp fun p q hpin ↦ (pin_eq hpin).1)]
    exact List.mem_map_of_mem hp
  · obtain ⟨r, hr, hpin⟩ := exists_pin_eq hpins hq
    obtain ⟨hsame, htype⟩ := pin_eq hpin
    exact parameterType_bool (htypes r hr (hsame.symm.trans hname)) htype

theorem Planned.expr (hl : l.Planned) {s t : Stmt} {e : Expr}
    (hbody : (l.program.tree.method l.member.handle).body = some s) (ht : t ∈ s.nodes)
    (he : e ∈ t.exprs) : e.ids.Nodup ∧ e.Grouped l.program := by
  have hhandle := mem_handles_of_body hbody
  have hids := (SyntaxTree.ids_sublist hhandle hbody).nodup hl.distinct.1
  have hhead := (Stmt.headIds_sublist ht).nodup hids
  refine ⟨?_, t.id, hl.callsGrouped _ hhandle s hbody t ht e he⟩
  exact (List.nodup_flatMap.1 (List.nodup_cons.1 hhead).2).1 e he

/-- The machine of a member starts in its first working state, with the parameters on its pins. The
slots that it calls through are at rest, and they are served. -/
structure StartsIn (l : Lowering) (c : Component) (w : World V) (x : Execution I c.machine)
    (m : Memory V) : Prop where
  config : x.config 0 = ⟨1, 0, m⟩
  rests : m.Rests I l.program
  parameters : ∀ n, l.Supplies n → x.inputs 0 (.own (.parameter n)) = I.bool (w.parameter n)
  serves : ∀ o ∈ c.invocations, ∀ slot < o.slots, x.Serves w o.target slot

variable {x : Execution I c.machine} {m : Memory V}

theorem StartsIn.begun (hm : l.StartsIn c w x m)
    (hpins : (l.program.tree.method l.member.handle).parameters.mapM l.pin = .ok c.parameters)
    (last : Nat) (e : Expr) : ∃ m₀, x.Stands (Draft.number last) 0 (l.begun c) m₀ ∧
      (Draft.empty l.member.fullName c.returnType).Begins (l.begun c) m m₀ ∧
      (l.begun c).Logical l ∧ (l.begun c).Informed I l w m₀.values e := by
  let d₀ := (Draft.empty l.member.fullName c.returnType).begin []
  have hs : x.Stands (Draft.number last) 0 d₀ m := ⟨rfl, .fresh 1, rfl, m, hm.config, rfl⟩
  obtain ⟨m₀, hs₀, hbegins, hsupplied⟩ := hs.takeParameters c.parameters
  have hnone (i : NodeId) : (l.begun c).result? i = none := by
    have hresults : (l.begun c).results = [] := hbegins.results
    rw [Draft.result?, hresults]
    rfl
  have hknown (n : String) (hn : l.Supplies n) : (l.begun c).Supplied m₀ (x.inputs 0) n := by
    obtain ⟨hmem, htypes⟩ := hn.pins hpins
    exact hsupplied n ⟨hn.1, rfl, rfl⟩ htypes (.inl hmem)
  refine ⟨m₀, hs₀, ⟨hbegins.results, hbegins.frame, hbegins.driven, hbegins.started⟩,
    ⟨fun i r hr ↦ ?_, fun n hn ↦ (hknown n hn).binding⟩,
    ⟨fun n hn ↦ (hknown n hn).value.trans (hm.parameters n hn), fun g _ v hv ↦ ?_⟩⟩
  · rw [hnone] at hr
    cases hr
  · rw [hnone] at hv
    cases hv

theorem StartsIn.hosts (hm : l.StartsIn c w x m) (hl : l.Planned) (hI : I.IsBoolean) {d : Draft}
    (hM : c.machine.Realizes (Draft.number d.nextState) d.code)
    (hΓ : (c.interface l.program).Sees l) :
    x.Hosts (Draft.number d.nextState) d (c.interface l.program) l w := by
  refine ⟨hI, hM, hΓ, hl.namesDistinct, fun target slot hslot ↦ ?_⟩
  obtain ⟨o, ho, rfl, hlt⟩ := hslot
  exact hm.serves o ho slot hlt

/-- A member that returns a boolean expression ends with its value, and the invocations that it has
made are those that the evaluation of the expression makes. -/
theorem reaches_truth (hl : l.Planned) (h : l.component = .ok c) (hsize : c.states.length ≤ 2 ^ 32)
    {s : Stmt} {e : Expr} (hbody : (l.program.tree.method l.member.handle).body = some s)
    (hreturns : s.Returns e) (hbool : (l.program.tree.method l.member.handle).returnType = .bool)
    (he : e.IsLogic l) (hI : I.IsBoolean) (hm : l.StartsIn c w x m) :
    ∃ t, x.Reaches c.finishedState t ∧
      (x.config t).memory.driven (.own .result) = some (I.bool (e.truth I l.program.tree w)) ∧
      ((x.config t).memory.started : Multiset (Started V)) =
        m.started + (e.perform I l.program.tree w).2 := by
  obtain ⟨code, d, hcode, hpins, hresult, hlower, hdeclarations, hstates, hinvocations⟩ :=
    component_eq h
  obtain rfl := Option.some.inj (hbody.symm.trans hcode)
  let Γ := c.interface l.program
  have hΓ : Γ.Sees l := ⟨rfl, hinvocations⟩
  have hM := Draft.realizes_complete hstates hsize
  have hcovers : Γ.Covers d := by
    unfold Interface.Covers
    exact hdeclarations ▸ List.Subset.refl _
  obtain ⟨m₀, hs, hbegins, hlogical, hinformed⟩ := hm.begun hpins d.nextState e
  obtain ⟨locals, hframe⟩ := hbegins.frame
  have htype : c.returnType = some .boolean := by
    unfold resultType at hresult
    rw [hbool] at hresult
    exact (Except.ok.inj hresult).symm
  obtain ⟨t, ht, hmem⟩ := hreturns.exists_mem
  obtain ⟨hids, hgroup⟩ := hl.expr hcode ht hmem
  have hx := hm.hosts hl hI hM hΓ
  -- Of the fresh draft all invocations are left, and none is after the value is returned.
  have hret : l.ret (l.expand (l.stmt noExpansion)) (some e) (l.begun c) = .ok d :=
    (hreturns.stmt_eq hs.opened).symm.trans hlower
  obtain ⟨d₁, rfl, hcarries⟩ := hx.ret (sound_expandBody hΓ) hids he hgroup hlogical hs.opened
    ((congrArg Frame.returnType hframe).trans htype) (congrArg Frame.returnVariable hframe) htype
    hret
  have hcovers₁ : Γ.Covers d₁ := hcovers
  obtain ⟨B, C, hev⟩ := hcarries.reaches.evolves
  obtain ⟨hproper, -, hexpanded, -⟩ := proper_begun (hcovers₁.mono hev.toGrows)
  have hexpanded₁ : d₁.frame.isExpanded = false := by
    rw [hev.frame]
    exact hexpanded
  obtain ⟨-, hproper₁, -⟩ := hcarries.reaches.proper trivial hcovers₁ hproper
  obtain ⟨t₁, m₁, hworks₁, hs₁, hdriven, hstarted⟩ := hcarries.follows trivial hproper hcovers₁
    ((Draft.before_leave hcarries.opened).keptIn (.refl _ _)) hs ⟨hm.rests.congr hbegins.driven, hinformed⟩
  obtain ⟨t₂, -, hworks₂, henters⟩ := hs₁.leave hM (hproper₁.valid.not_mem hcarries.opened)
    hexpanded₁ (.refl _ _)
  obtain ⟨hreaches, hmemory⟩ := henters.reaches hstates (hworks₁.trans hworks₂)
  refine ⟨t₂, hreaches, hmemory ▸ hdriven, ?_⟩
  rw [hmemory, hstarted, hbegins.started, Draft.owed_fresh he]
  intro i _
  rw [Draft.result?, hbegins.results]
  rfl

end Lowering

/-- The execution of a machine from a configuration, with inputs that follow the configurations. -/
def Execution.driven {V ι : Type} (I : Interpretation V) (M : Machine ι)
    (reply : Configuration ι V → SignalRef → V) (start : Configuration ι V) : Execution I M where
  inputs := fun n ↦ reply ((fun a ↦ M.tick I (reply a) a)^[n] start)
  config := fun n ↦ (fun a ↦ M.tick I (reply a) a)^[n] start
  step := fun n ↦ Function.iterate_succ_apply' _ n start

/-- Slots that answer at once, and parameters that keep their values. -/
def World.reply {V ι : Type} (I : Interpretation V) (w : World V) (a : Configuration ι V) :
    SignalRef → V
  | .own (.parameter n) => I.bool (w.parameter n)
  | .invocation target slot .finished => I.bool (a.memory.raised I target slot)
  | .invocation target slot .result => I.bool (w.result (target, a.memory.arguments target slot))
  | _ => I.bool false

theorem Execution.serves_driven {V ι : Type} {I : Interpretation V} (hI : I.IsBoolean)
    (M : Machine ι) (w : World V) (start : Configuration ι V) (target : String) (slot : UInt32) :
    (Execution.driven I M (w.reply I) start).Serves w target slot := by
  have hprompt (t : Nat) : (Execution.driven I M (w.reply I) start).finished target slot t =
      (Execution.driven I M (w.reply I) start).started target slot t :=
    hI.truth _
  refine ⟨fun t ↦ ?_, fun t h ↦ ⟨t, le_rfl, ?_⟩, fun t _ h ↦ ?_, fun t _ h ↦ ⟨t + 1, ?_, ?_⟩,
    fun t k htk _ h _ ↦ ?_, fun _ _ _ _ _ _ ↦ rfl⟩
  · rw [hprompt]
    rfl
  · rw [hprompt]
    exact h t le_rfl
  · rw [hprompt]
    exact h
  · exact Nat.lt_succ_self t
  · rw [hprompt]
    exact h (t + 1) (Nat.lt_succ_self t)
  · rw [hprompt]
    exact h (k + 1) (by omega) le_rfl

def Interpretation.booleans : Interpretation Bool where
  bool := id
  int := fun _ _ ↦ false
  unary := fun _ a ↦ !a
  binary := fun op a b _ ↦
    match op with
    | .and => a && b
    | .or => a || b
    | .eq => a == b
    | _ => a != b
  index := fun _ _ ↦ false
  update := fun a _ _ ↦ a
  resize := fun a _ _ ↦ a
  truth := id

theorem Interpretation.isBoolean_booleans : Interpretation.booleans.IsBoolean := by
  refine ⟨fun _ ↦ rfl, fun _ ↦ rfl, fun op hop a b ↦ ?_⟩
  cases op <;> first | rfl | cases hop

def guardedCalls : List TypeDecl :=
  let ask (e : Expr) : Expr := .call 0 ⟨"Oracle", "Ask", [.bool]⟩ [e]
  let a : Expr := .getParameter 0 "a"
  let b : Expr := .getParameter 0 "b"
  [{ fullName := "Oracle"
     methods :=
      [{ name := "Both", parameters := [⟨"a", .bool⟩, ⟨"b", .bool⟩], returnType := .bool
         body := some (.ret 0 (some (.binary 0 .logicAnd (ask a)
          (.conditional 0 b (ask (.unary 0 .logicNot (ask b))) a)))) },
       { name := "Ask", parameters := [⟨"x", .bool⟩], returnType := .bool
         body := some (.ret 0 (some (.getParameter 0 "x"))) }] }]

def guardedCaller : Synthesis Lowering :=
  Lowering.ofTypes guardedCalls { device := "Zynq-7020" } [⟨0, 0⟩] "Oracle.Both(bool,bool)"

/-- Whatever the parameters are and the other member answers, the machine of `guardedCaller` ends
with the value of its expression, and it has called only where this takes the answer. -/
theorem reaches_truth_guardedCaller : ∃ (l : Lowering) (c : Component) (e : Expr),
    l.component = .ok c ∧ c.states.length = 19 ∧ e.IsLogic l ∧ ∀ w : World Bool, ∃ t,
      let x := Execution.driven .booleans c.machine (w.reply .booleans)
        ⟨1, 0, ⟨fun _ ↦ false, fun _ ↦ none, []⟩⟩
      x.Reaches c.finishedState t ∧
        (x.config t).memory.driven (.own .result) = some (e.truth .booleans l.program.tree w) ∧
        ((x.config t).memory.started : Multiset (Started Bool)) =
          (e.perform .booleans l.program.tree w).2 := by
  have hsize : (SyntaxTree.ofTypes guardedCalls).ids.length ≤ 2 ^ 32 := by decide +kernel
  have hcheck : Synthesis.check (guardedCaller >>= fun l ↦ l.component >>= fun c ↦ .ok (l, c))
      (fun r ↦ r.2.states.length = 19 ∧
        (r.1.program.tree.method r.1.member.handle).returnType = .bool ∧
        ∃ s ∈ (r.1.program.tree.method r.1.member.handle).body, ∃ e ∈ s.returned?, e.IsLogic r.1) =
      true := by decide +kernel
  obtain ⟨⟨l, c⟩, hr, hcheck⟩ := Synthesis.check_eq_true.1 hcheck
  obtain ⟨l, hl, hr⟩ := Synthesis.bind_eq_ok.1 hr
  obtain ⟨c, hc, hr⟩ := Synthesis.bind_eq_ok.1 hr
  obtain ⟨rfl, rfl⟩ := Prod.mk.inj (Except.ok.inj hr)
  obtain ⟨hlength, hbool, s, hs, e, he, hlogic⟩ := of_decide_eq_true hcheck
  have hlength : c.states.length = 19 := hlength
  refine ⟨l, c, e, hc, hlength, hlogic, fun w ↦ ?_⟩
  let m : Memory Bool := ⟨fun _ ↦ false, fun _ ↦ none, []⟩
  have hrests : m.Rests .booleans l.program :=
    ⟨fun _ _ ↦ rfl, fun _ _ _ _ hne ↦ absurd rfl hne⟩
  obtain ⟨t, hreaches, hresult, hstarted⟩ := Lowering.reaches_truth
    (x := Execution.driven .booleans c.machine (w.reply .booleans) ⟨1, 0, m⟩)
    (Lowering.planned_ofTypes hsize hl) hc (by omega) hs (Stmt.returns_of_returned? he) hbool hlogic
    Interpretation.isBoolean_booleans
    ⟨rfl, hrests, fun _ _ ↦ rfl, fun o _ slot _ ↦
      Execution.serves_driven Interpretation.isBoolean_booleans c.machine w ⟨1, 0, m⟩ o.target slot⟩
  refine ⟨t, hreaches, hresult, ?_⟩
  rw [hstarted]
  exact zero_add _

end Fabric
