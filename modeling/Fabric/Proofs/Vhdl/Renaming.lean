import Fabric.Proofs.Component.WellFormed
import Fabric.Proofs.Vhdl.Identifiers
import Mathlib.Data.List.Find
import Mathlib.Data.Set.Function

namespace Fabric

/-- New names: for members, for the parameters of a member, and for the variables of a component. -/
structure Renaming where
  member : String → String
  parameter : String → String → String
  variableName : String → String → String

def PinKind.rename (f : String → String) : PinKind → PinKind
  | .parameter name => .parameter (f name)
  | pin => pin

namespace Renaming

def same : Renaming := ⟨fun x ↦ x, fun _ x ↦ x, fun _ x ↦ x⟩

variable (ρ : Renaming) (owner : String)

def signal : SignalRef → SignalRef
  | .own pin => .own (pin.rename (ρ.parameter owner))
  | .invocation target slot pin =>
    .invocation (ρ.member target) slot (pin.rename (ρ.parameter target))

def expr : HwExpr → HwExpr
  | .bool value => .bool value
  | .int value type => .int value type
  | .variable name => .variable (ρ.variableName owner name)
  | .signal signal => .signal (ρ.signal owner signal)
  | .unary op operand => .unary op (expr operand)
  | .binary op lhs rhs type => .binary op (expr lhs) (expr rhs) type
  | .index array index => .index (expr array) (expr index)
  | .resize operand source target => .resize (expr operand) source target

def target : HwTarget → HwTarget
  | .variable name => .variable (ρ.variableName owner name)
  | .element array index => .element (ρ.variableName owner array) (ρ.expr owner index)
  | .signal signal => .signal (ρ.signal owner signal)

mutual

def stmt : HwStmt → HwStmt
  | .assign target value => .assign (ρ.target owner target) (ρ.expr owner value)
  | .branch condition thenBody elseBody =>
    .branch (ρ.expr owner condition) (stmts thenBody) (stmts elseBody)
  | .comment _ => .comment ""

def stmts : List HwStmt → List HwStmt
  | [] => []
  | s :: ss => stmt s :: stmts ss

end

def transition : Transition StateId → Transition StateId
  | .goto next => .goto next
  | .branch condition ifTrue ifFalse => .branch (ρ.expr owner condition) ifTrue ifFalse
  | .waitFor condition next => .waitFor (ρ.expr owner condition) next

def state (s : State StateId) : State StateId :=
  { s with
    label := "", body := ρ.stmts owner s.body, transition := ρ.transition owner s.transition }

def pins (ps : List ComponentPin) : List ComponentPin :=
  ps.map fun p ↦ { p with name := ρ.parameter owner p.name }

def component (c : Component) : Component :=
  { c with
    name := ρ.member c.name
    parameters := ρ.pins c.name c.parameters
    declarations := c.declarations.map fun d ↦ ⟨ρ.variableName c.name d.name, d.type, none⟩
    states := c.states.map (ρ.state c.name)
    invocations := c.invocations.map fun i ↦ { i with target := ρ.member i.target }
    worstCaseCycles := none }

def proxy (p : Proxy) : Proxy :=
  { p with
    target := ρ.member p.target
    slots := p.slots.map fun s ↦ { s with caller := ρ.member s.caller }
    parameters := ρ.pins p.target p.parameters }

def entryPoint (e : EntryPointInfo) : EntryPointInfo :=
  ⟨e.memberId, ρ.member e.fullName, [], "", false, false⟩

/-- What compact mode can see of a manifest, under new names: labels, comments and bounds are left
out. -/
def outline (m : Manifest) : Manifest :=
  ⟨m.components.map ρ.component, m.proxies.map ρ.proxy, ⟨[]⟩, m.entryPoints.map ρ.entryPoint⟩

end Renaming

/-- What holds of all members, of all parameters of members and of all variables of components that
are named in a manifest. -/
structure Manifest.Uses (m : Manifest) (isMember : String → Prop)
    (isParameter : String → String → Prop) (isRegister : Component → String → Prop) : Prop where
  components : ∀ c ∈ m.components, isMember c.name
  parameters : ∀ c ∈ m.components, ∀ q ∈ c.parameters, isParameter c.name q.name
  declarations : ∀ c ∈ m.components, ∀ d ∈ c.declarations, isRegister c d.name
  invocations : ∀ c ∈ m.components, ∀ i ∈ c.invocations, isMember i.target
  registers : ∀ c ∈ m.components, ∀ s ∈ c.states, ∀ x, .variable x ∈ s.nodes → isRegister c x
  own : ∀ c ∈ m.components, ∀ s ∈ c.states, ∀ x, .signal (.own (.parameter x)) ∈ s.nodes →
    isParameter c.name x
  targets : ∀ c ∈ m.components, ∀ s ∈ c.states, ∀ t slot pin,
    .signal (.invocation t slot pin) ∈ s.nodes → isMember t
  arguments : ∀ c ∈ m.components, ∀ s ∈ c.states, ∀ t slot x,
    .signal (.invocation t slot (.parameter x)) ∈ s.nodes → isParameter t x
  proxies : ∀ p ∈ m.proxies, isMember p.target
  pins : ∀ p ∈ m.proxies, ∀ q ∈ p.parameters, isParameter p.target q.name
  callers : ∀ p ∈ m.proxies, ∀ s ∈ p.slots, s.caller = externalCaller ∨ isMember s.caller
  entryPoints : ∀ e ∈ m.entryPoints, isMember e.fullName

theorem Manifest.Uses.imp {m : Manifest} {isMember isMember' : String → Prop}
    {isParameter isParameter' : String → String → Prop}
    {isRegister isRegister' : Component → String → Prop}
    (h : m.Uses isMember isParameter isRegister) (hmember : ∀ x, isMember x → isMember' x)
    (hparameter : ∀ x a, isParameter x a → isParameter' x a)
    (hregister : ∀ c ∈ m.components, ∀ a, isRegister c a → isRegister' c a) :
    m.Uses isMember' isParameter' isRegister' where
  components c hc := hmember _ (h.components c hc)
  parameters c hc q hq := hparameter _ _ (h.parameters c hc q hq)
  declarations c hc d hd := hregister c hc _ (h.declarations c hc d hd)
  invocations c hc i hi := hmember _ (h.invocations c hc i hi)
  registers c hc s hs x hx := hregister c hc x (h.registers c hc s hs x hx)
  own c hc s hs x hx := hparameter _ x (h.own c hc s hs x hx)
  targets c hc s hs t slot pin ht := hmember t (h.targets c hc s hs t slot pin ht)
  arguments c hc s hs t slot x hx := hparameter t x (h.arguments c hc s hs t slot x hx)
  proxies p hp := hmember _ (h.proxies p hp)
  pins p hp q hq := hparameter _ _ (h.pins p hp q hq)
  callers p hp s hs := (h.callers p hp s hs).imp_right (hmember _)
  entryPoints e he := hmember _ (h.entryPoints e he)

/-- Components in the order of their names, and no name that is not declared. -/
structure Manifest.Closed (m : Manifest) : Prop where
  sorted : m.components.Pairwise fun a b ↦ a.name < b.name
  declared : m.Uses (fun x ↦ ∃ c ∈ m.components, c.name = x)
    (fun x a ↦ ∃ c ∈ m.components, c.name = x ∧ a ∈ c.parameters.map ComponentPin.name)
    fun c a ↦ a ∈ c.declarations.map Declaration.name

namespace Renaming

/-- Different names get different names, in the order of the components; the outside stays. -/
structure Suits (ρ : Renaming) (m : Manifest) : Prop where
  sorted : m.components.Pairwise fun a b ↦ ρ.member a.name < ρ.member b.name
  external : ρ.member externalCaller = externalCaller
  inside : ∀ c ∈ m.components, ρ.member c.name = externalCaller → c.name = externalCaller
  parameterNames : ∀ c ∈ m.components,
    Set.InjOn (ρ.parameter c.name) {a | a ∈ c.parameters.map ComponentPin.name}
  variableNames : ∀ c ∈ m.components,
    Set.InjOn (ρ.variableName c.name) {a | a ∈ c.declarations.map Declaration.name}

end Renaming

namespace Vhdl

open Text

section

variable (ρ : Renaming) (m : Manifest)

structure KeepsMember (x : String) : Prop where
  find : (compact (ρ.outline m)).find? (ρ.member x) =
    ((compact m).find? x).map fun c ↦ (ρ.component c.1, c.2)
  name : (compact m).find? x = none → ρ.member x = x

def KeepsParameter (x a : String) : Prop :=
  ((ρ.pins x ((compact m).parameters x)).findIdx fun q ↦ q.name = ρ.parameter x a) =
    ((compact m).parameters x).findIdx fun q ↦ q.name = a

def KeepsVariable (c : Component) (a : String) : Prop :=
  ∀ n n' k, (Scope.mk n' (ρ.component c) k).variablePosition (ρ.variableName c.name a) =
    (Scope.mk n c k).variablePosition a

/-- Whatever is named in a manifest keeps its position. -/
structure Keeps : Prop where
  uses : m.Uses (KeepsMember ρ m) (KeepsParameter ρ m) (KeepsVariable ρ)
  external : ρ.member externalCaller = externalCaller
  outside : KeepsMember ρ m externalCaller
  found : ∀ e ∈ m.entryPoints, (ρ.outline m).component? (ρ.member e.fullName) =
    (m.component? e.fullName).map ρ.component

end

section

variable {ρ : Renaming} {m : Manifest} {x y : String}

def KeepsPin (ρ : Renaming) (m : Manifest) (x : String) : PinKind → Prop
  | .parameter a => KeepsParameter ρ m x a
  | _ => True

@[simp]
theorem isVerbose_compact (m : Manifest) : (compact m).isVerbose = false := rfl

theorem tag_outline (hx : KeepsMember ρ m x) :
    (compact (ρ.outline m)).tag (ρ.member x) = (compact m).tag x := by
  rw [Names.tag, Names.tag, hx.find]
  cases hfind : (compact m).find? x with
  | none => rw [hx.name hfind]; rfl
  | some c => rfl

theorem parameters_outline (hx : KeepsMember ρ m x) :
    (compact (ρ.outline m)).parameters (ρ.member x) = ρ.pins x ((compact m).parameters x) := by
  rw [Names.parameters, Names.parameters, hx.find]
  cases hfind : (compact m).find? x with
  | none => rfl
  | some c =>
    obtain ⟨-, rfl⟩ := Names.mem_of_find? hfind
    rfl

theorem compactPin_outline (hx : KeepsMember ρ m x) {pin : PinKind} (hpin : KeepsPin ρ m x pin) :
    compactPin ((compact (ρ.outline m)).parameters (ρ.member x)) (pin.rename (ρ.parameter x)) =
      compactPin ((compact m).parameters x) pin := by
  rw [parameters_outline hx]
  cases pin with
  | parameter a => exact congrArg (fun k ↦ "p" ++ toString k) hpin
  | _ => rfl

theorem instanceSignal_outline (hx : KeepsMember ρ m x) (number : Nat) (pin : PinKind)
    (hpin : KeepsPin ρ m x pin) :
    (compact (ρ.outline m)).instanceSignal (ρ.member x) number (pin.rename (ρ.parameter x)) =
      (compact m).instanceSignal x number pin := by
  simp [Names.instanceSignal, tag_outline hx, compactPin_outline hx hpin]

theorem slotSignal_outline (hx : KeepsMember ρ m x) (hy : KeepsMember ρ m y)
    (callerInstance slot : Nat) (pin : PinKind) (hpin : KeepsPin ρ m x pin) :
    (compact (ρ.outline m)).slotSignal (ρ.member x) (ρ.member y) callerInstance slot
        (pin.rename (ρ.parameter x)) =
      (compact m).slotSignal x y callerInstance slot pin := by
  simp [Names.slotSignal, tag_outline hx, tag_outline hy, hy.find, compactPin_outline hx hpin]

theorem entryPin_outline (hx : KeepsMember ρ m x) (memberId : Nat) (pin : PinKind)
    (hpin : KeepsPin ρ m x pin) :
    (compact (ρ.outline m)).entryPin (ρ.member x) memberId (pin.rename (ρ.parameter x)) =
      (compact m).entryPin x memberId pin := by
  simp [Names.entryPin, compactPin_outline hx hpin]

end

def scope (m : Manifest) (c : Component) (k : Nat) : Scope := ⟨compact m, c, k⟩

@[simp]
theorem names_scope (m : Manifest) (c : Component) (k : Nat) :
    (scope m c k).names = compact m := rfl

@[simp]
theorem component_scope (m : Manifest) (c : Component) (k : Nat) :
    (scope m c k).component = c := rfl

@[simp]
theorem number_scope (m : Manifest) (c : Component) (k : Nat) : (scope m c k).number = k := rfl

section

variable {ρ : Renaming} {m : Manifest} (hk : Keeps ρ m)

include hk

variable {c : Component} (hc : c ∈ m.components) {st : State StateId} (hst : st ∈ c.states)
  (k : Nat)

include hc hst

theorem variableName_outline {a : String} (ha : .variable a ∈ st.nodes) :
    (scope (ρ.outline m) (ρ.component c) k).variableName (ρ.variableName c.name a) =
      (scope m c k).variableName a := by
  rw [Scope.variableName, Scope.variableName, scope, scope,
    hk.uses.registers c hc st hst a ha (compact m) (compact (ρ.outline m)) k]
  simp [Names.variableName]

theorem signal_outline {r : SignalRef} (hr : .signal r ∈ st.nodes) :
    (scope (ρ.outline m) (ρ.component c) k).signal (ρ.signal c.name r) =
      (scope m c k).signal r := by
  cases r with
  | own pin =>
    refine instanceSignal_outline (hk.uses.components c hc) k pin ?_
    cases pin with
    | parameter a => exact hk.uses.own c hc st hst a hr
    | _ => trivial
  | invocation t slot pin =>
    refine slotSignal_outline (hk.uses.targets c hc st hst t slot pin hr)
      (hk.uses.components c hc) k slot.toNat pin ?_
    cases pin with
    | parameter a => exact hk.uses.arguments c hc st hst t slot a hr
    | _ => trivial

theorem code_outline {e : HwExpr} (he : e.nodes ⊆ st.nodes) :
    (scope (ρ.outline m) (ρ.component c) k).code (ρ.expr c.name e) = (scope m c k).code e := by
  induction e with
  | bool value => rfl
  | int value type => rfl
  | «variable» a => exact congrArg _ (variableName_outline hk hc hst k (he List.mem_cons_self))
  | signal r => exact congrArg _ (signal_outline hk hc hst k (he List.mem_cons_self))
  | unary op e ih =>
    have hsub := ih ((List.cons_subset.1 he).2)
    cases op <;> simp only [Renaming.expr, Scope.code, hsub]
  | binary op a b type iha ihb =>
    obtain ⟨ha, hb⟩ := List.append_subset.1 (List.cons_subset.1 he).2
    cases op <;> simp only [Renaming.expr, Scope.code, iha ha, ihb hb]
  | index a i iha ihi =>
    obtain ⟨ha, hi⟩ := List.append_subset.1 (List.cons_subset.1 he).2
    simp only [Renaming.expr, Scope.code, iha ha, ihi hi]
  | resize e source target ih =>
    have hsub := ih ((List.cons_subset.1 he).2)
    simp only [Renaming.expr, Scope.code, hsub]

theorem expr_outline {e : HwExpr} (he : e.nodes ⊆ st.nodes) :
    (scope (ρ.outline m) (ρ.component c) k).expr (ρ.expr c.name e) = (scope m c k).expr e :=
  congrArg Code.print (code_outline hk hc hst k he)

theorem target_outline {t : HwTarget} (ht : t.nodes ⊆ st.nodes) :
    (scope (ρ.outline m) (ρ.component c) k).target (ρ.target c.name t) =
      (scope m c k).target t := by
  cases t with
  | «variable» a =>
    exact congrArg (·, ":=") (variableName_outline hk hc hst k (ht List.mem_cons_self))
  | element a i =>
    obtain ⟨ha, hi⟩ := List.cons_subset.1 ht
    simp only [Renaming.target, Scope.target, variableName_outline hk hc hst k ha,
      code_outline hk hc hst k hi]
  | signal r => exact congrArg (·, "<=") (signal_outline hk hc hst k (ht List.mem_cons_self))

omit hk hc hst in
theorem isEmpty_stmts (owner : String) (ss : List HwStmt) :
    (ρ.stmts owner ss).isEmpty = ss.isEmpty := by
  cases ss <;> rfl

end

mutual

theorem stmt_outline {ρ : Renaming} {m : Manifest} (hk : Keeps ρ m) {c : Component}
    (hc : c ∈ m.components) {st : State StateId} (hst : st ∈ c.states) (k : Nat) :
    ∀ t : HwStmt, t.nodes ⊆ st.nodes →
      (scope (ρ.outline m) (ρ.component c) k).stmt (ρ.stmt c.name t) = (scope m c k).stmt t
  | .assign target value, h => by
    obtain ⟨ht, hv⟩ := List.append_subset.1 h
    simp only [Renaming.stmt, Scope.stmt, target_outline hk hc hst k ht,
      expr_outline hk hc hst k hv]
  | .branch condition thenBody elseBody, h => by
    obtain ⟨hcondition, hbodies⟩ := List.append_subset.1 h
    obtain ⟨hthen, helse⟩ := List.append_subset.1 hbodies
    simp only [Renaming.stmt, Scope.stmt, expr_outline hk hc hst k hcondition, isEmpty_stmts,
      stmts_outline hk hc hst k thenBody hthen, stmts_outline hk hc hst k elseBody helse]
  | .comment text, _ => rfl

theorem stmts_outline {ρ : Renaming} {m : Manifest} (hk : Keeps ρ m) {c : Component}
    (hc : c ∈ m.components) {st : State StateId} (hst : st ∈ c.states) (k : Nat) :
    ∀ ts : List HwStmt, HwStmt.nodesAll ts ⊆ st.nodes →
      (scope (ρ.outline m) (ρ.component c) k).stmts (ρ.stmts c.name ts) = (scope m c k).stmts ts
  | [], _ => rfl
  | t :: ts, h => by
    obtain ⟨ht, hts⟩ := List.append_subset.1 h
    simp only [Renaming.stmts, Scope.stmts, stmt_outline hk hc hst k t ht,
      stmts_outline hk hc hst k ts hts]

end

section

variable {ρ : Renaming} {m : Manifest} (hk : Keeps ρ m) {c : Component} (hc : c ∈ m.components)
  {st : State StateId} (hst : st ∈ c.states) (k : Nat)

include hk hc hst

theorem transition_outline {t : Transition StateId} (ht : t.nodes ⊆ st.nodes) :
    (scope (ρ.outline m) (ρ.component c) k).transition (ρ.transition c.name t) =
      (scope m c k).transition t := by
  cases t with
  | goto next => rfl
  | branch condition ifTrue ifFalse =>
    simp only [Renaming.transition, Scope.transition, expr_outline hk hc hst k ht]
    rfl
  | waitFor condition next =>
    simp only [Renaming.transition, Scope.transition, expr_outline hk hc hst k ht]
    rfl

theorem state_outline :
    (scope (ρ.outline m) (ρ.component c) k).state (ρ.state c.name st) = (scope m c k).state st := by
  have hbody := stmts_outline hk hc hst k st.body (List.subset_append_left _ _)
  have htransition := transition_outline hk hc hst k (t := st.transition)
    (List.subset_append_right _ _)
  simp only [Scope.state, Renaming.state, hbody, htransition, isEmpty_stmts]
  simp [scope, Names.state]

omit hst in
theorem declaration_outline {d : Declaration} (hd : d ∈ c.declarations) :
    (scope (ρ.outline m) (ρ.component c) k).declaration
        ⟨ρ.variableName c.name d.name, d.type, none⟩ =
      (scope m c k).declaration d := by
  obtain ⟨name, type, comment⟩ := d
  have hname : (scope (ρ.outline m) (ρ.component c) k).variableName (ρ.variableName c.name name) =
      (scope m c k).variableName name := by
    rw [Scope.variableName, Scope.variableName, scope, scope,
      hk.uses.declarations c hc _ hd (compact m) (compact (ρ.outline m)) k]
    simp [Names.variableName]
  cases comment <;> simp [Scope.declaration, hname]

omit hst in
theorem resetSignals_outline :
    (scope (ρ.outline m) (ρ.component c) k).resetSignals = (scope m c k).resetSignals := by
  have hown : (scope (ρ.outline m) (ρ.component c) k).signal (.own .finished) =
      (scope m c k).signal (.own .finished) :=
    instanceSignal_outline (hk.uses.components c hc) k .finished trivial
  have hslot {i : OutgoingInvocation} (hi : i ∈ c.invocations) (slot : UInt32) :
      (scope (ρ.outline m) (ρ.component c) k).signal
          (.invocation (ρ.member i.target) slot .started) =
        (scope m c k).signal (.invocation i.target slot .started) :=
    slotSignal_outline (hk.uses.invocations c hc i hi) (hk.uses.components c hc) k slot.toNat
      .started trivial
  have hinvocations : (ρ.component c).invocations =
      c.invocations.map fun i ↦ { i with target := ρ.member i.target } := rfl
  simp only [Scope.resetSignals, component_scope, hown, hinvocations, List.flatMap_map]
  refine congrArg _ (List.flatMap_congr fun i hi ↦ List.map_congr_left fun slot _ ↦ ?_)
  rw [hslot hi]

omit hst in
theorem process_outline :
    (scope (ρ.outline m) (ρ.component c) k).process = (scope m c k).process := by
  have hlabel : (compact (ρ.outline m)).processLabel (ρ.member c.name) k =
      (compact m).processLabel c.name k := by
    rw [Names.processLabel, Names.processLabel, tag_outline (hk.uses.components c hc)]
  have hstates : (ρ.component c).states.flatMap (scope (ρ.outline m) (ρ.component c) k).state =
      c.states.flatMap (scope m c k).state := by
    rw [Renaming.component, List.flatMap_map]
    exact List.flatMap_congr fun st hst ↦ state_outline hk hc hst k
  have hdeclarations : (ρ.component c).declarations.flatMap
      (scope (ρ.outline m) (ρ.component c) k).declaration =
      c.declarations.flatMap (scope m c k).declaration := by
    rw [Renaming.component, List.flatMap_map]
    exact List.flatMap_congr fun d hd ↦ declaration_outline hk hc k hd
  have hwait : (scope (ρ.outline m) (ρ.component c) k).maxWait = (scope m c k).maxWait := by
    simp [Scope.maxWait, scope, Renaming.component, Renaming.state, Function.comp_def]
  have hids : (ρ.component c).states.map (fun st ↦ (compact (ρ.outline m)).state st.id) =
      c.states.map fun st ↦ (compact m).state st.id := by
    simp [Renaming.component, Renaming.state, Function.comp_def, Names.state]
  have hreset := resetSignals_outline hk hc k
  have hname : (ρ.component c).name = ρ.member c.name := rfl
  have hidle : (compact (ρ.outline m)).state Component.idleState =
      (compact m).state Component.idleState := rfl
  simp only [Scope.process, hwait, hreset, names_scope, component_scope, number_scope, hstates,
    hdeclarations, hids, hname, hidle, hlabel, isVerbose_compact, Bool.false_eq_true, if_false]

end

section

variable {ρ : Renaming} {m : Manifest} (hk : Keeps ρ m) {p : Proxy} (hp : p ∈ m.proxies)

theorem inboundPins_proxy : inboundPins (ρ.proxy p) =
    (inboundPins p).map (PinKind.rename (ρ.parameter p.target)) := by
  simp [inboundPins, Renaming.proxy, Renaming.pins, PinKind.rename]

theorem outboundPins_proxy : outboundPins (ρ.proxy p) =
    (outboundPins p).map (PinKind.rename (ρ.parameter p.target)) := by
  cases h : p.returnType <;> simp [outboundPins, Renaming.proxy, PinKind.rename, h]

theorem keepsPin_outbound {pin : PinKind} (hpin : pin ∈ outboundPins p) :
    KeepsPin ρ m p.target pin := by
  cases pin with
  | parameter a => cases h : p.returnType <;> simp [outboundPins, h] at hpin
  | _ => trivial

include hk hp

theorem keepsPin_inbound {pin : PinKind} (hpin : pin ∈ inboundPins p) :
    KeepsPin ρ m p.target pin := by
  rcases List.mem_cons.1 hpin with rfl | hpin
  · trivial
  · obtain ⟨q, hq, rfl⟩ := List.mem_map.1 hpin
    exact hk.uses.pins p hp q hq

theorem proxySlot_outline {slot : InvocationSlot} (hslot : slot ∈ p.slots) (pin : PinKind)
    (hpin : KeepsPin ρ m p.target pin) :
    (compact (ρ.outline m)).proxySlot (ρ.proxy p) { slot with caller := ρ.member slot.caller }
        (pin.rename (ρ.parameter p.target)) =
      (compact m).proxySlot p slot pin := by
  have hcaller : KeepsMember ρ m slot.caller := by
    rcases hk.uses.callers p hp slot hslot with hexternal | hmember
    · rw [hexternal]
      exact hk.outside
    · exact hmember
  exact slotSignal_outline (hk.uses.proxies p hp) hcaller _ _ pin hpin

theorem port_slot {i : Nat} (hi : i < p.slots.length) (pin : PinKind)
    (hpin : KeepsPin ρ m p.target pin) :
    (compact (ρ.outline m)).port (ρ.proxy p) (.slot i (pin.rename (ρ.parameter p.target))) =
      (compact m).port p (.slot i pin) := by
  have hget : p.slots.getD i default = p.slots[i] := by simp [hi]
  have hget' : (ρ.proxy p).slots.getD i default =
      { p.slots[i] with caller := ρ.member p.slots[i].caller } := by
    simp [Renaming.proxy, hi]
  rw [Names.port, Names.port, hget, hget']
  exact proxySlot_outline hk hp (List.getElem_mem hi) pin hpin

theorem port_unit (k : Nat) (pin : PinKind) (hpin : KeepsPin ρ m p.target pin) :
    (compact (ρ.outline m)).port (ρ.proxy p) (.unit k (pin.rename (ρ.parameter p.target))) =
      (compact m).port p (.unit k pin) :=
  instanceSignal_outline (hk.uses.proxies p hp) k pin hpin

theorem handshake_slot {i : Nat} (hi : i < p.slots.length) :
    (compact (ρ.outline m)).port (ρ.proxy p) (.slot i .started) =
        (compact m).port p (.slot i .started) ∧
      (compact (ρ.outline m)).port (ρ.proxy p) (.slot i .finished) =
        (compact m).port p (.slot i .finished) :=
  ⟨port_slot hk hp hi .started trivial, port_slot hk hp hi .finished trivial⟩

theorem handshake_unit (k : Nat) :
    (compact (ρ.outline m)).port (ρ.proxy p) (.unit k .started) =
        (compact m).port p (.unit k .started) ∧
      (compact (ρ.outline m)).port (ρ.proxy p) (.unit k .finished) =
        (compact m).port p (.unit k .finished) :=
  ⟨port_unit hk hp k .started trivial, port_unit hk hp k .finished trivial⟩

omit hk hp in
theorem sequentials_drives {α : Type} (n : Names) (p : Proxy) (target : α → Port)
    (source : α → Option Port) (as : List α) :
    n.sequentials p (as.map fun a ↦ .drive (target a) (source a)) =
      as.map fun a ↦ connect (n.port p (target a)) (((source a).map (n.port p)).getD "false") := by
  induction as with
  | nil => rfl
  | cons a as ih => simp [Names.sequentials, Names.sequential, ih]

omit hk hp in
theorem sequentials_append (n : Names) (p : Proxy) (ss ts : List Sequential) :
    n.sequentials p (ss ++ ts) = n.sequentials p ss ++ n.sequentials p ts := by
  induction ss with
  | nil => rfl
  | cons s ss ih => simp [Names.sequentials, ih]

omit hk hp in
theorem sequentials_congr {n n' : Names} {p p' : Proxy} {s s' : Nat → Sequential} {ks : List Nat}
    (h : ∀ k ∈ ks, n'.sequential p' (s' k) = n.sequential p (s k)) :
    n'.sequentials p' (ks.map s') = n.sequentials p (ks.map s) := by
  induction ks with
  | nil => rfl
  | cons k ks ih =>
    rw [List.forall_mem_cons] at h
    simp only [List.map_cons, Names.sequentials, h.1, ih h.2]

omit hk hp in
/-- Pins are driven alike from pins that keep their positions. -/
theorem drives_outline {pins : List PinKind} {target source : PinKind → Port}
    (h : ∀ pin ∈ pins,
      (compact (ρ.outline m)).port (ρ.proxy p) (target (pin.rename (ρ.parameter p.target))) =
          (compact m).port p (target pin) ∧
        (compact (ρ.outline m)).port (ρ.proxy p) (source (pin.rename (ρ.parameter p.target))) =
          (compact m).port p (source pin)) :
    (compact (ρ.outline m)).sequentials (ρ.proxy p)
        ((pins.map (PinKind.rename (ρ.parameter p.target))).map fun pin ↦
          .drive (target pin) (some (source pin))) =
      (compact m).sequentials p (pins.map fun pin ↦ .drive (target pin) (some (source pin))) := by
  rw [List.map_map]
  simp only [Function.comp_def, sequentials_drives]
  refine List.map_congr_left fun pin hpin ↦ ?_
  obtain ⟨htarget, hsource⟩ := h pin hpin
  simp only [Option.map_some, Option.getD_some, htarget, hsource]

omit hk hp in
/-- Branches that are written alike for each number. -/
theorem branches_congr {n n' : Names} {p p' : Proxy} {test test' : Nat → Condition}
    {body body' : Nat → List Sequential} {ks : List Nat}
    (h : ∀ k ∈ ks, n'.condition p' (test' k) = n.condition p (test k) ∧
      n'.sequentials p' (body' k) = n.sequentials p (body k)) (word : String) :
    n'.sequentialBranches p' word (ks.map fun k ↦ (test' k, body' k)) =
      n.sequentialBranches p word (ks.map fun k ↦ (test k, body k)) := by
  induction ks generalizing word with
  | nil => rfl
  | cons k ks ih =>
    rw [List.forall_mem_cons] at h
    simp only [List.map_cons, Names.sequentialBranches, h.1.1, h.1.2, ih h.2]

variable {i : Nat} (hi : i < p.slots.length)

include hi

theorem acquire_outline :
    (compact (ρ.outline m)).sequential (ρ.proxy p) (acquire (ρ.proxy p) i) =
      (compact m).sequential p (acquire p i) := by
  have hnumbers : instanceNumbers (ρ.proxy p) = instanceNumbers p := rfl
  simp only [acquire, hnumbers, Names.sequential]
  congr 2
  refine branches_congr (fun k _ ↦ ⟨?_, ?_⟩) "if"
  · rfl
  · rw [inboundPins_proxy, sequentials_append, sequentials_append]
    refine congrArg₂ _ rfl (drives_outline fun pin hpin ↦ ?_)
    have hkeeps := keepsPin_inbound hk hp hpin
    exact ⟨port_unit hk hp k pin hkeeps, port_slot hk hp hi pin hkeeps⟩

theorem release_outline :
    (compact (ρ.outline m)).sequential (ρ.proxy p) (release (ρ.proxy p) i) =
      (compact m).sequential p (release p i) := by
  have hnumbers : instanceNumbers (ρ.proxy p) = instanceNumbers p := rfl
  obtain ⟨hstarted, hfinished⟩ := handshake_slot hk hp hi
  simp only [release, hnumbers, Names.sequential]
  congr 2
  refine branches_congr (fun k _ ↦ ⟨?_, ?_⟩) "if"
  · rfl
  · obtain ⟨hwork, hdone⟩ := handshake_unit hk hp k
    have houtbound : (compact (ρ.outline m)).sequentials (ρ.proxy p)
        ((outboundPins (ρ.proxy p)).map fun pin ↦ .drive (.slot i pin) (some (.unit k pin))) =
        (compact m).sequentials p
          ((outboundPins p).map fun pin ↦ .drive (.slot i pin) (some (.unit k pin))) := by
      rw [outboundPins_proxy]
      refine drives_outline fun pin hpin ↦ ?_
      have hkeeps : KeepsPin ρ m p.target pin := keepsPin_outbound hpin
      exact ⟨port_slot hk hp hi pin hkeeps, port_unit hk hp k pin hkeeps⟩
    simp [Names.sequential, Names.sequentials, Names.sequentialBranches, Names.sequentialRest,
      Names.condition, houtbound, hstarted, hfinished, hdone, hwork]

theorem serveSlot_outline :
    (compact (ρ.outline m)).sequential (ρ.proxy p) (serveSlot (ρ.proxy p) i) =
      (compact m).sequential p (serveSlot p i) := by
  obtain ⟨hstarted, hfinished⟩ := handshake_slot hk hp hi
  simp [serveSlot, Names.sequential, Names.sequentials, Names.sequentialBranches,
    Names.sequentialRest, Names.condition, acquire_outline hk hp hi, release_outline hk hp hi,
    hstarted, hfinished]

omit hk hp hi in
theorem serveAll_compact (m : Manifest) (p : Proxy) :
    (compact m).serveAll p = (List.range' 0 p.slots.length).map (serveSlot p) := by
  rw [← List.zipIdx_map_snd 0 p.slots, List.map_map, List.map_eq_flatMap]
  rfl

omit hi in
theorem resetAll_outline : (compact (ρ.outline m)).sequentials (ρ.proxy p) (resetAll (ρ.proxy p)) =
    (compact m).sequentials p (resetAll p) := by
  have hnumbers : instanceNumbers (ρ.proxy p) = instanceNumbers p := rfl
  have hlength : (ρ.proxy p).slots.length = p.slots.length := List.length_map ..
  have hflags : (compact (ρ.outline m)).sequentials (ρ.proxy p) [.clear .active, .clear .busy] =
      (compact m).sequentials p [.clear .active, .clear .busy] := by
    simp only [Names.sequentials, Names.sequential]
  have hunits (k : Nat) := (handshake_unit hk hp k).1
  have hslots {i : Nat} (hi : i ∈ List.range p.slots.length) :=
    (handshake_slot hk hp (List.mem_range.1 hi)).2
  simp only [resetAll, hnumbers, hlength, sequentials_append, sequentials_drives, hflags, hunits,
    Option.map_none]
  exact congrArg _ (List.map_congr_left fun i hi ↦ by rw [hslots hi])

omit hi in
theorem arbitrate_outline :
    (compact (ρ.outline m)).sequential (ρ.proxy p) ((compact (ρ.outline m)).arbitrate (ρ.proxy p)) =
      (compact m).sequential p ((compact m).arbitrate p) := by
  have hlength : (ρ.proxy p).slots.length = p.slots.length := List.length_map ..
  have hserve : (compact (ρ.outline m)).sequentials (ρ.proxy p)
      ((List.range' 0 p.slots.length).map (serveSlot (ρ.proxy p))) =
      (compact m).sequentials p ((List.range' 0 p.slots.length).map (serveSlot p)) := by
    refine sequentials_congr fun i hi ↦ serveSlot_outline hk hp ?_
    simpa using hi
  simp only [Names.arbitrate, serveAll_compact, hlength, Names.sequential, Names.sequentialBranches,
    Names.sequentialRest, Names.condition, resetAll_outline hk hp, hserve]

omit hi in
theorem dispatcher_outline :
    (compact (ρ.outline m)).dispatcher (ρ.proxy p) = (compact m).dispatcher p := by
  have hlength : (ρ.proxy p).slots.length = p.slots.length := List.length_map ..
  have hcount : (ρ.proxy p).instanceCount = p.instanceCount := rfl
  have hlabel : (compact (ρ.outline m)).proxyLabel (ρ.proxy p).target =
      (compact m).proxyLabel p.target :=
    congrArg (· ++ "_proxy") (tag_outline (hk.uses.proxies p hp))
  simp only [Names.dispatcher, hlength, hcount, hlabel, arbitrate_outline hk hp, isVerbose_compact,
    Bool.false_eq_true, if_false]

omit hi in
theorem directProxy_outline :
    (compact (ρ.outline m)).directProxy (ρ.proxy p) = (compact m).directProxy p := by
  have hslots : (ρ.proxy p).slots =
      p.slots.map fun s ↦ { s with caller := ρ.member s.caller } := rfl
  have htarget : (ρ.proxy p).target = ρ.member p.target := rfl
  simp only [Names.directProxy, hslots, htarget, inboundPins_proxy, outboundPins_proxy,
    isVerbose_compact, Bool.false_eq_true, if_false]
  cases hall : p.slots with
  | nil => rfl
  | cons slot slots =>
    have hslot : slot ∈ p.slots := hall ▸ List.mem_cons_self
    simp only [List.map_cons, List.map_map]
    refine congrArg₂ _ (congrArg _ (List.map_congr_left fun pin hpin ↦ ?_))
      (List.map_congr_left fun pin hpin ↦ ?_)
    · have hkeeps := keepsPin_inbound hk hp hpin
      simp only [Function.comp_apply, proxySlot_outline hk hp hslot pin hkeeps,
        instanceSignal_outline (hk.uses.proxies p hp) 0 pin hkeeps]
    · have hkeeps : KeepsPin ρ m p.target pin := keepsPin_outbound hpin
      simp only [Function.comp_apply, proxySlot_outline hk hp hslot pin hkeeps,
        instanceSignal_outline (hk.uses.proxies p hp) 0 pin hkeeps]

omit hi in
theorem proxy_outline :
    (compact (ρ.outline m)).proxy (ρ.proxy p) = (compact m).proxy p := by
  simp only [Names.proxy, directProxy_outline hk hp, dispatcher_outline hk hp]
  rfl

end

theorem interfaceSignals_outline {ρ : Renaming} {owner : String} {name name' : PinKind → String}
    {pins : List ComponentPin} {returnType : Option HwType}
    (h : ∀ pin ∈ interfacePins pins returnType,
      name' (pin.rename (ρ.parameter owner)) = name pin) :
    Names.interfaceSignals name' (ρ.pins owner pins) returnType =
      Names.interfaceSignals name pins returnType := by
  have hstarted : name' .started = name .started := h .started (by simp [interfacePins])
  have hfinished : name' .finished = name .finished := h .finished (by simp [interfacePins])
  simp only [Names.interfaceSignals, Renaming.pins, List.map_map, hstarted, hfinished]
  refine congrArg₂ _ (congrArg _ (List.map_congr_left fun q hq ↦ ?_))
    (List.map_congr_left fun t ht ↦ ?_)
  · have hq' := h (.parameter q.name)
      (by simpa [interfacePins, dataPins] using ⟨q, hq, rfl⟩)
    simp only [PinKind.rename] at hq'
    simp only [Function.comp_apply, hq']
  · have hsome : returnType ≠ none := by
      rintro rfl
      exact absurd ht List.not_mem_nil
    have hresult : name' .result = name .result :=
      h .result (by simpa [interfacePins, dataPins] using hsome)
    rw [hresult]

theorem keepsPin_interface {ρ : Renaming} {m : Manifest} {x : String} {pins : List ComponentPin}
    {returnType : Option HwType} (h : ∀ q ∈ pins, KeepsParameter ρ m x q.name) {pin : PinKind}
    (hpin : pin ∈ interfacePins pins returnType) : KeepsPin ρ m x pin := by
  cases pin with
  | parameter a =>
    obtain ⟨q, hq, rfl⟩ : ∃ q ∈ pins, q.name = a := by simpa [interfacePins, dataPins] using hpin
    exact h q hq
  | _ => trivial

section

variable {ρ : Renaming} {m : Manifest} (hk : Keeps ρ m)

include hk

theorem slotSignals_outline {p : Proxy} (hp : p ∈ m.proxies) :
    (compact (ρ.outline m)).slotSignals (ρ.proxy p) = (compact m).slotSignals p := by
  simp only [Names.slotSignals, isVerbose_compact, Bool.false_eq_true, if_false, List.nil_append]
  rw [Renaming.proxy, List.flatMap_map]
  refine List.flatMap_congr fun slot hslot ↦ interfaceSignals_outline fun pin hpin ↦ ?_
  exact proxySlot_outline hk hp hslot pin (keepsPin_interface (hk.uses.pins p hp) hpin)

theorem instanceSignals_outline {c : Component} (hc : c ∈ m.components) :
    (compact (ρ.outline m)).instanceSignals (ρ.component c) = (compact m).instanceSignals c := by
  simp only [Names.instanceSignals, isVerbose_compact, Bool.false_eq_true, if_false,
    List.nil_append]
  refine List.flatMap_congr fun k _ ↦ interfaceSignals_outline fun pin hpin ↦ ?_
  exact instanceSignal_outline (hk.uses.components c hc) k pin
    (keepsPin_interface (hk.uses.parameters c hc) hpin)

theorem processes_outline {c : Component} (hc : c ∈ m.components) :
    (compact (ρ.outline m)).processes (ρ.component c) = (compact m).processes c :=
  List.flatMap_congr fun k _ ↦ congrArg _ (process_outline hk hc k)

/-- Steps that are written alike for the component of an entry point. -/
theorem entryPoint_congr {α : Type} {e : EntryPointInfo} (he : e ∈ m.entryPoints)
    {f f' : Component → List α}
    (h : ∀ c ∈ m.components, c.name = e.fullName → f' (ρ.component c) = f c) :
    (match (ρ.outline m).component? (ρ.member e.fullName) with
      | some c => f' c
      | none => []) =
      match m.component? e.fullName with
      | some c => f c
      | none => [] := by
  rw [hk.found e he]
  cases hfind : m.component? e.fullName with
  | none => rfl
  | some c =>
    obtain ⟨hc, hname⟩ := mem_of_searchSorted hfind
    exact h c hc hname

theorem externalSlot_outline {x : String} (hx : KeepsMember ρ m x) (pin : PinKind)
    (hpin : KeepsPin ρ m x pin) :
    (compact (ρ.outline m)).externalSlot (ρ.member x) (pin.rename (ρ.parameter x)) =
      (compact m).externalSlot x pin := by
  have hslot := slotSignal_outline hx hk.outside 0 0 pin hpin
  rwa [hk.external] at hslot

section

variable {e : EntryPointInfo} (he : e ∈ m.entryPoints) {c : Component} (hc : c ∈ m.components)
  (hname : c.name = e.fullName)

include hc hname

theorem parameter_entryPin {q : ComponentPin} (hq : q ∈ c.parameters) :
    (compact (ρ.outline m)).entryPin (ρ.member e.fullName) e.memberId.toNat
        (.parameter (ρ.parameter c.name q.name)) =
      (compact m).entryPin e.fullName e.memberId.toNat (.parameter q.name) := by
  rw [← hname]
  exact entryPin_outline (hk.uses.components c hc) _ (.parameter q.name)
    (hk.uses.parameters c hc q hq)

include he

theorem entryPins_outline : (compact (ρ.outline m)).entryPins (ρ.entryPoint e) (ρ.component c) =
    (compact m).entryPins e c := by
  have hresult := entryPin_outline (hk.uses.entryPoints e he) e.memberId.toNat .result trivial
  simp only [Names.entryPins, Renaming.component, Renaming.pins, Renaming.entryPoint, List.map_map]
  refine congrArg₂ _ (List.map_congr_left fun q hq ↦ ?_) (List.map_congr_left fun t _ ↦ ?_)
  · simp only [Function.comp_apply, parameter_entryPin hk hc hname hq]
  · simp only [PinKind.rename] at hresult
    rw [hresult]

theorem selected_outline : (compact (ρ.outline m)).selected (ρ.entryPoint e) (ρ.component c) =
    (compact m).selected e c := by
  have hmember := hk.uses.entryPoints e he
  have hresult := entryPin_outline hmember e.memberId.toNat .result trivial
  have hreturn := externalSlot_outline hk hmember .result trivial
  have hstarted := externalSlot_outline hk hmember .started trivial
  have hfinished := externalSlot_outline hk hmember .finished trivial
  simp only [PinKind.rename] at hresult hreturn hstarted hfinished
  have hparameters : (ρ.component c).parameters.map (fun q ↦
      connect ((compact (ρ.outline m)).externalSlot (ρ.member e.fullName) (.parameter q.name))
        ((compact (ρ.outline m)).entryPin (ρ.member e.fullName) e.memberId.toNat
          (.parameter q.name))) =
      c.parameters.map fun q ↦ connect ((compact m).externalSlot e.fullName (.parameter q.name))
        ((compact m).entryPin e.fullName e.memberId.toNat (.parameter q.name)) := by
    simp only [Renaming.component, Renaming.pins, List.map_map]
    refine List.map_congr_left fun q hq ↦ ?_
    have hslot := externalSlot_outline hk (hk.uses.components c hc) (.parameter q.name)
      (hk.uses.parameters c hc q hq)
    rw [hname] at hslot
    simp only [PinKind.rename] at hslot
    simp only [Function.comp_apply, parameter_entryPin hk hc hname hq]
    rw [hname, hslot]
  have htype : (ρ.component c).returnType = c.returnType := rfl
  simp only [Names.selected, Renaming.entryPoint, hparameters, hstarted, hfinished, hresult,
    hreturn, htype, isVerbose_compact, Bool.false_eq_true, if_false]

end

theorem entity_outline : (compact (ρ.outline m)).entity (ρ.outline m) = (compact m).entity m := by
  have hentries : (ρ.outline m).entryPoints = m.entryPoints.map ρ.entryPoint := rfl
  simp only [Names.entity, hentries, List.flatMap_map]
  -- the pins of the entry points are all that is left to compare
  congr 8
  exact List.flatMap_congr fun e he ↦
    entryPoint_congr hk he fun c hc hname ↦ entryPins_outline hk he hc hname

theorem dispatch_outline :
    (compact (ρ.outline m)).dispatch (ρ.outline m) = (compact m).dispatch m := by
  have hentries : (ρ.outline m).entryPoints = m.entryPoints.map ρ.entryPoint := rfl
  have hreset : (m.entryPoints.map fun e ↦
      connect ((compact (ρ.outline m)).externalSlot (ρ.entryPoint e).fullName .started) "false") =
      m.entryPoints.map fun e ↦ connect ((compact m).externalSlot e.fullName .started) "false" := by
    refine List.map_congr_left fun e he ↦ ?_
    have hstarted := externalSlot_outline hk (hk.uses.entryPoints e he) .started trivial
    exact congrArg (connect · "false") hstarted
  simp only [Names.dispatch, hentries, List.flatMap_map, List.map_map, Function.comp_def, hreset,
    isVerbose_compact, Bool.false_eq_true, if_false]
  -- the branches of the entry points are all that is left to compare
  congr 14
  exact List.flatMap_congr fun e he ↦
    entryPoint_congr hk he fun c hc hname ↦ selected_outline hk he hc hname

theorem architecture_outline :
    (compact (ρ.outline m)).architecture (ρ.outline m) = (compact m).architecture m := by
  have hcomponents : (ρ.outline m).components = m.components.map ρ.component := rfl
  have hproxies : (ρ.outline m).proxies = m.proxies.map ρ.proxy := rfl
  have hunits := List.flatMap_congr fun c hc ↦ instanceSignals_outline hk (c := c) hc
  have hslots := List.flatMap_congr fun p hp ↦ slotSignals_outline hk (p := p) hp
  have hprocesses := List.flatMap_congr fun c hc ↦ processes_outline hk (c := c) hc
  have hwires := List.flatMap_congr fun p hp ↦
    congrArg (Step.blank :: ·) (proxy_outline hk (p := p) hp)
  simp only [Names.architecture, hcomponents, hproxies, List.flatMap_map, hunits, hslots,
    hprocesses, hwires, dispatch_outline hk]

omit hk in
theorem package_outline (ρ : Renaming) (m : Manifest) : package (ρ.outline m) = package m := by
  have htypes (c : Component) : typesOf (ρ.component c) = typesOf c := by
    simp [typesOf, Renaming.component, Renaming.pins, Function.comp_def]
  have harrays : arrayTypes (ρ.outline m) = arrayTypes m := by
    simp only [arrayTypes, Renaming.outline, List.flatMap_map, htypes]
  rw [package, package, harrays]

theorem steps_outline (device device' : Device) (identity identity' : String) :
    steps (ρ.outline m) device identity .compact = steps m device' identity' .compact := by
  have hentity := entity_outline hk
  have harchitecture := architecture_outline hk
  have hmode (m : Manifest) : Names.isVerbose ⟨.compact, m.components⟩ = false := rfl
  rw [compact, compact] at hentity harchitecture
  simp only [steps, hmode, Bool.false_eq_true, if_false, package_outline, hentity, harchitecture]

end

section

variable {ρ : Renaming} {m : Manifest}

theorem findIdx_congr {α : Type} {as : List α} {p q : α → Bool} (h : ∀ a ∈ as, p a = q a) :
    as.findIdx p = as.findIdx q := by
  induction as with
  | nil => rfl
  | cons a as ih =>
    rw [List.forall_mem_cons] at h
    rw [List.findIdx_cons, List.findIdx_cons, h.1, ih h.2]

/-- A search that only tells members apart that keep different names finds the same position. -/
theorem find?_outline {x y : String} (h : ∀ c ∈ m.components, ρ.member c.name = y ↔ c.name = x) :
    (compact (ρ.outline m)).find? y =
      ((compact m).find? x).map fun c ↦ (ρ.component c.1, c.2) := by
  have hcomponents : (compact (ρ.outline m)).components = m.components.map ρ.component := rfl
  rw [Names.find?, Names.find?, hcomponents, List.zipIdx_map, ← List.map_reverse, List.find?_map]
  refine congrArg _ (List.find?_congr fun c hc ↦ ?_)
  have hmem : c.1 ∈ m.components := List.fst_mem_of_mem_zipIdx (List.mem_reverse.1 hc)
  exact decide_eq_decide.2 (h c.1 hmem)

theorem findIdx_pins {owner a : String} {ps : List ComponentPin}
    (h : ∀ q ∈ ps, ρ.parameter owner q.name = ρ.parameter owner a ↔ q.name = a) :
    ((ρ.pins owner ps).findIdx fun q ↦ q.name = ρ.parameter owner a) =
      ps.findIdx fun q ↦ q.name = a := by
  rw [Renaming.pins, List.findIdx_map]
  exact findIdx_congr fun q hq ↦ decide_eq_decide.2 (h q hq)

theorem variablePosition_outline {c : Component} {a : String}
    (h : ∀ d ∈ c.declarations, ρ.variableName c.name d.name = ρ.variableName c.name a ↔ d.name = a)
    (ha : a ∈ c.declarations.map Declaration.name) : KeepsVariable ρ c a := by
  intro n n' k
  have hnames : (ρ.component c).declarations.map Declaration.name =
      (c.declarations.map Declaration.name).map (ρ.variableName c.name) := by
    simp [Renaming.component, Function.comp_def]
  simp only [Scope.variablePosition, hnames]
  generalize hn : c.declarations.map Declaration.name = names at ha
  have hfind : ((names.map (ρ.variableName c.name)).zipIdx.reverse.find? fun d ↦
      d.1 = ρ.variableName c.name a) =
      (names.zipIdx.reverse.find? fun d ↦ d.1 = a).map (Prod.map (ρ.variableName c.name) id) := by
    rw [List.zipIdx_map, ← List.map_reverse, List.find?_map]
    refine congrArg _ (List.find?_congr fun x hx ↦ ?_)
    have hx' := List.fst_mem_of_mem_zipIdx (List.mem_reverse.1 hx)
    obtain ⟨d, hd, hname⟩ := List.mem_map.1 (hn ▸ hx')
    exact decide_eq_decide.2 (by simpa [hname] using h d hd)
  have hsome : (names.zipIdx.reverse.find? fun d ↦ d.1 = a) ≠ none := by
    intro hnone
    obtain ⟨i, hi⟩ := List.getElem?_of_mem ha
    have hmem := List.mem_reverse.2 (List.mk_mem_zipIdx_iff_getElem?.2 hi)
    simpa using List.find?_eq_none.1 hnone _ hmem
  obtain ⟨x, hx⟩ := Option.ne_none_iff_exists'.1 hsome
  simp only [hfind, hx, Option.map_some, Prod.map_snd, id]

theorem keeps_same (m : Manifest) : Keeps .same m := by
  have hmember (x : String) : KeepsMember .same m x :=
    ⟨find?_outline fun _ _ ↦ Iff.rfl, fun _ ↦ rfl⟩
  have hparameter (x a : String) : KeepsParameter .same m x a := findIdx_pins fun _ _ ↦ Iff.rfl
  have hvariable (c : Component) (a : String) : KeepsVariable .same c a := by
    intro n n' k
    have hnames : (Renaming.same.component c).declarations.map Declaration.name =
        c.declarations.map Declaration.name := List.map_map ..
    simp only [Scope.variablePosition, hnames]
    rfl
  have huses : m.Uses (KeepsMember .same m) (KeepsParameter .same m) (KeepsVariable .same) := by
    constructor <;> intros <;>
      first | exact hmember _ | exact hparameter _ _ | exact hvariable _ _ | exact .inr (hmember _)
  refine ⟨huses, rfl, hmember _, fun e _ ↦ ?_⟩
  have hlength : (Renaming.same.outline m).components.length = m.components.length :=
    List.length_map ..
  rw [Manifest.component?, hlength]
  exact searchSorted_map ..

theorem keeps_of_suits (hm : m.Closed) (hρ : ρ.Suits m) : Keeps ρ m := by
  have hnodup : (m.components.map Component.name).Nodup := nodup_of_increasing hm.sorted
  have hrenamed : (m.components.map fun c ↦ ρ.member c.name).Nodup := nodup_of_increasing hρ.sorted
  have hfind {c : Component} (hc : c ∈ m.components) :
      ∃ i, (compact m).find? c.name = some (c, i) := Names.find?_eq hnodup hc
  have hcomponent {c : Component} (hc : c ∈ m.components) : KeepsMember ρ m c.name := by
    refine ⟨find?_outline fun b hb ↦ ⟨fun hbc ↦ ?_, congrArg _⟩, fun hnone ↦ ?_⟩
    · rw [List.inj_on_of_nodup_map hrenamed hb hc hbc]
    · obtain ⟨i, hi⟩ := hfind hc
      rw [hi] at hnone
      cases hnone
  have houtside : KeepsMember ρ m externalCaller := by
    refine ⟨find?_outline fun b hb ↦ ?_, fun _ ↦ hρ.external⟩
    rw [hρ.external]
    exact ⟨hρ.inside b hb, fun hb' ↦ by rw [hb', hρ.external]⟩
  refine ⟨hm.declared.imp ?_ ?_ ?_, hρ.external, houtside, fun e he ↦ ?_⟩
  · rintro x ⟨c, hc, rfl⟩
    exact hcomponent hc
  · rintro x a ⟨c, hc, rfl, ha⟩
    obtain ⟨i, hi⟩ := hfind hc
    have hparameters : (compact m).parameters c.name = c.parameters := by
      rw [Names.parameters, hi]
    rw [KeepsParameter, hparameters]
    exact findIdx_pins fun q hq ↦ (hρ.parameterNames c hc).eq_iff (List.mem_map_of_mem hq) ha
  · intro c hc a ha
    refine variablePosition_outline (fun d hd ↦ ?_) ha
    exact (hρ.variableNames c hc).eq_iff (List.mem_map_of_mem hd) ha
  · obtain ⟨c, hc, hname⟩ := hm.declared.entryPoints e he
    have hsorted : (ρ.outline m).components.Pairwise fun a b ↦ a.name < b.name :=
      List.pairwise_map.2 hρ.sorted
    rw [Manifest.component?, Manifest.component?, (searchSorted_eq_some hm.sorted).2 ⟨hc, hname⟩]
    exact (searchSorted_eq_some hsorted).2 ⟨List.mem_map_of_mem hc, congrArg ρ.member hname⟩

theorem steps_eq {m' : Manifest} (hm : m.Closed) (hρ : ρ.Suits m)
    (h : Renaming.same.outline m' = ρ.outline m) (device device' : Device)
    (identity identity' : String) :
    steps m' device' identity' .compact = steps m device identity .compact := by
  rw [← steps_outline (keeps_same m') device' device' identity identity', h,
    steps_outline (keeps_of_suits hm hρ)]

end

/-- The names and the comments of a manifest do not show, nor does what it is made for. -/
theorem write_renamed {m m' : Manifest} {ρ : Renaming} (hm : m.Closed) (hρ : ρ.Suits m)
    (h : Renaming.same.outline m' = ρ.outline m) (device device' : Device)
    (identity identity' : String) :
    write m' device' identity' .compact = write m device identity .compact ∧
      '\\' ∉ (write m device identity .compact).toList ∧
      ¬['-', '-'] <:+: (write m device identity .compact).toList := by
  have hclean : Clean (write m device identity .compact) :=
    clean_layout (declares_steps m device identity).clean
  have hsteps := steps_eq hm hρ h device device' identity identity'
  exact ⟨congrArg layout hsteps, hclean.backslash, not_infix_of_clean hclean⟩

def invokedManifest (caller callee lhs rhs register text : String) : Manifest :=
  let byte := HwType.unsigned 8
  let started := HwExpr.signal (.own .started)
  let finished value := HwStmt.drive (.own .finished) (.bool value)
  let difference := HwExpr.binary .sub (.signal (.own (.parameter lhs)))
    (.signal (.own (.parameter rhs))) byte
  { components := [
      ⟨caller, [], none, [], [
        ⟨0, text, [finished false], 0, .waitFor started 1⟩,
        ⟨1, text, [
          .drive (.invocation callee 0 (.parameter rhs)) (.int 1 byte),
          .drive (.invocation callee 0 .started) (.bool true)], 0,
          .waitFor (.signal (.invocation callee 0 .finished)) 2⟩,
        ⟨2, text, [finished true], 0, .waitFor (.unary .not started) 0⟩],
        [⟨callee, 1⟩], 1, none⟩,
      ⟨callee, [⟨lhs, byte⟩, ⟨rhs, byte⟩], some byte, [⟨register, byte, some text⟩], [
        ⟨0, text, [finished false], 0, .waitFor started 1⟩,
        ⟨1, text, [.comment text, .setVariable register difference,
          .drive (.own .result) (.variable register)], 0, .goto 2⟩,
        ⟨2, text, [finished true], 0, .waitFor (.unary .not started) 0⟩],
        [], 1, some text.length.toUInt64⟩]
    proxies := [
      ⟨caller, .direct, 1, [⟨externalCaller, 0, 0⟩], [], none⟩,
      ⟨callee, .direct, 1, [⟨caller, 0, 0⟩], [⟨lhs, byte⟩, ⟨rhs, byte⟩], some byte⟩]
    memberIds := ⟨[⟨0, caller⟩]⟩
    entryPoints := [⟨0, caller, [], text, false, false⟩] }

def swap : Renaming where
  member := fun x ↦ if x = "Main" then "Begin" else if x = "Minus" then "Less" else x
  parameter := fun _ a ↦ if a = "a" then "b" else "a"
  variableName := fun _ _ ↦ "difference"

def subtraction : Manifest := invokedManifest "Main" "Minus" "a" "b" "x" "Idle"

theorem closed_subtraction : subtraction.Closed := by
  refine ⟨by decide, ?_⟩
  constructor <;>
    simp [subtraction, invokedManifest, State.nodes, HwStmt.nodesAll, HwStmt.nodes,
      HwTarget.nodes, HwExpr.nodes, Transition.nodes, HwStmt.drive, HwStmt.setVariable]
  case targets =>
    rintro t slot pin ((⟨rfl, -⟩ | ⟨rfl, -⟩) | ⟨rfl, -⟩) <;> exact .inr rfl
  case arguments =>
    rintro t slot x rfl - rfl
    exact ⟨rfl, .inr rfl⟩

theorem suits_swap : swap.Suits subtraction where
  sorted := by decide
  external := by decide
  inside := by decide
  parameterNames := by
    simp [subtraction, invokedManifest, swap, Set.InjOn]
  variableNames := by
    simp [subtraction, invokedManifest, swap, Set.InjOn]

theorem write_renamed_swap :
    subtraction.Closed ∧ swap.Suits subtraction ∧
      Renaming.same.outline (invokedManifest "Begin" "Less" "b" "a" "difference" "--") =
        swap.outline subtraction ∧
      write (invokedManifest "Begin" "Less" "b" "a" "difference" "--")
          ⟨"Zynq-7010", ⟨.ofDecimal 50 6⟩, [], 0⟩ "second" .compact =
        write subtraction ⟨"Zynq-7020", ⟨.ofDecimal 100 6⟩, [], 0⟩ "first" .compact ∧
      '\\' ∉ (write subtraction ⟨"Zynq-7020", ⟨.ofDecimal 100 6⟩, [], 0⟩ "first" .compact).toList ∧
      ¬['-', '-'] <:+:
        (write subtraction ⟨"Zynq-7020", ⟨.ofDecimal 100 6⟩, [], 0⟩ "first" .compact).toList :=
  ⟨closed_subtraction, suits_swap, rfl, write_renamed closed_subtraction suits_swap rfl _ _ _ _⟩

end Vhdl

end Fabric
