import Fabric.Proofs.Construction.Member
import Fabric.Proofs.Synthesis.Planned

namespace Fabric

def HwExpr.nodes : HwExpr → List HwExpr
  | .unary op e => .unary op e :: e.nodes
  | .binary op a b type => .binary op a b type :: (a.nodes ++ b.nodes)
  | .index a i => .index a i :: (a.nodes ++ i.nodes)
  | .resize e source target => .resize e source target :: e.nodes
  | e => [e]

def HwTarget.nodes : HwTarget → List HwExpr
  | .variable name => [.variable name]
  | .element array i => .variable array :: i.nodes
  | .signal s => [.signal s]

namespace HwStmt

mutual

def nodes : HwStmt → List HwExpr
  | .assign target value => target.nodes ++ value.nodes
  | .branch condition thenBody elseBody =>
    condition.nodes ++ (nodesAll thenBody ++ nodesAll elseBody)
  | .comment _ => []

def nodesAll : List HwStmt → List HwExpr
  | [] => []
  | s :: ss => nodes s ++ nodesAll ss

end

end HwStmt

variable {ι κ : Type}

def Transition.nodes : Transition ι → List HwExpr
  | .goto _ => []
  | .branch condition _ _ => condition.nodes
  | .waitFor condition _ => condition.nodes

def State.nodes (s : State ι) : List HwExpr := HwStmt.nodesAll s.body ++ s.transition.nodes

/-- A component is closed and well typed: each state has its number, the first and the last one
make the handshake with the invoker, transitions lead to states, and everything that occurs is
declared and has its type. -/
structure Component.WellFormed (c : Component) (p : Program) : Prop where
  three_states : 3 ≤ c.states.length
  ids : ∀ i s, c.states[i]? = some s → s.id = UInt32.ofNat i
  first : ∃ s, c.states[0]? = some s ∧ s.body = [.drive (.own .finished) (.bool false)] ∧
    s.transition = .waitFor (.signal (.own .started)) 1
  last : ∃ s, c.states[c.states.length - 1]? = some s ∧
    s.body = [.drive (.own .finished) (.bool true)] ∧
    s.transition = .waitFor (.unary .not (.signal (.own .started))) 0
  targets : ∀ s ∈ c.states, ∀ t ∈ s.transition.targets, t.toNat < c.states.length
  /-- State numbers have 32 bits. -/
  restart : c.states.length ≤ 2 ^ 32 → ∀ i s, c.states[i]? = some s → i < c.states.length - 1 →
    0 ∉ s.transition.targets
  declared : ∀ s ∈ c.states, ∀ x, .variable x ∈ s.nodes → ∃ e ∈ c.declarations, e.name = x
  parameters : ∀ s ∈ c.states, ∀ x, .signal (.own (.parameter x)) ∈ s.nodes →
    ∃ q ∈ c.parameters, q.name = x
  result : ∀ s ∈ c.states, .signal (.own .result) ∈ s.nodes → c.returnType.isSome
  slots : ∀ s ∈ c.states, ∀ target slot pin, .signal (.invocation target slot pin) ∈ s.nodes →
    ∃ o ∈ c.invocations, o.target = target ∧ slot < o.slots
  typed : ∀ s ∈ c.states,
    HwStmt.AllTyped (c.interface p) s.body ∧ s.transition.Typed (c.interface p)

section

variable {Γ : Interface}

theorem HwExpr.HasType.nodes : ∀ {e : HwExpr} {type : HwType}, e.HasType Γ type →
    ∀ x ∈ e.nodes, ∃ t, x.HasType Γ t
  | _, _, .bool value => List.forall_mem_singleton.2 ⟨_, .bool value⟩
  | _, _, .int value type => List.forall_mem_singleton.2 ⟨_, .int value type⟩
  | _, _, .variable hd => List.forall_mem_singleton.2 ⟨_, .variable hd⟩
  | _, _, .signal hs => List.forall_mem_singleton.2 ⟨_, .signal hs⟩
  | _, _, .unary hop he => List.forall_mem_cons.2 ⟨⟨_, .unary hop he⟩, he.nodes⟩
  | _, _, .shift hop ha hb => List.forall_mem_cons.2
      ⟨⟨_, .shift hop ha hb⟩, List.forall_mem_append.2 ⟨ha.nodes, hb.nodes⟩⟩
  | _, _, .compare hop hbool ha hb => List.forall_mem_cons.2
      ⟨⟨_, .compare hop hbool ha hb⟩, List.forall_mem_append.2 ⟨ha.nodes, hb.nodes⟩⟩
  | _, _, .combine hs hc hbool ha hb => List.forall_mem_cons.2
      ⟨⟨_, .combine hs hc hbool ha hb⟩, List.forall_mem_append.2 ⟨ha.nodes, hb.nodes⟩⟩
  | _, _, .index ha hi hplace => List.forall_mem_cons.2
      ⟨⟨_, .index ha hi hplace⟩, List.forall_mem_append.2 ⟨ha.nodes, hi.nodes⟩⟩
  | _, _, .resize he => List.forall_mem_cons.2 ⟨⟨_, .resize he⟩, he.nodes⟩

theorem HwExpr.HasType.declares {x : String} {type : HwType} (h : HasType Γ (.variable x) type) :
    Γ.Declares x type := by
  match h with
  | .variable hd => exact hd

theorem HwExpr.HasType.ofSignal {s : SignalRef} {type : HwType} (h : HasType Γ (.signal s) type) :
    s.HasType Γ type := by
  match h with
  | .signal hs => exact hs

theorem HwTarget.HasType.nodes : ∀ {t : HwTarget} {type : HwType}, t.HasType Γ type →
    ∀ x ∈ t.nodes, ∃ t, x.HasType Γ t
  | _, _, .variable hd => List.forall_mem_singleton.2 ⟨_, .variable hd⟩
  | _, _, .element hd hi _ => List.forall_mem_cons.2 ⟨⟨_, .variable hd⟩, hi.nodes⟩
  | _, _, .signal hs => List.forall_mem_singleton.2 ⟨_, .signal hs⟩

namespace HwStmt

mutual

theorem Typed.nodes : ∀ {s : HwStmt}, s.Typed Γ → ∀ x ∈ s.nodes, ∃ t, x.HasType Γ t
  | .assign target value, h => by
    obtain ⟨type, ht, hv⟩ := h
    exact List.forall_mem_append.2 ⟨ht.nodes, hv.nodes⟩
  | .branch condition thenBody elseBody, h => by
    obtain ⟨hc, ht, he⟩ := h
    exact List.forall_mem_append.2 ⟨hc.nodes, List.forall_mem_append.2
      ⟨AllTyped.nodes ht, AllTyped.nodes he⟩⟩
  | .comment _, _ => nofun

theorem AllTyped.nodes : ∀ {ss : List HwStmt}, AllTyped Γ ss →
    ∀ x ∈ nodesAll ss, ∃ t, x.HasType Γ t
  | [], _ => nofun
  | _ :: _, h => List.forall_mem_append.2 ⟨Typed.nodes h.1, AllTyped.nodes h.2⟩

end

end HwStmt

theorem Transition.Typed.nodes {t : Transition ι} (h : t.Typed Γ) :
    ∀ x ∈ t.nodes, ∃ t, x.HasType Γ t := by
  cases t with
  | goto next => nofun
  | branch condition a b => exact HwExpr.HasType.nodes h
  | waitFor condition next => exact HwExpr.HasType.nodes h

theorem HwExpr.hasType_all {conditions : List HwExpr}
    (h : ∀ e ∈ conditions, e.HasType Γ .boolean) : (HwExpr.all conditions).HasType Γ .boolean := by
  have hfold (rest : List HwExpr) (acc : HwExpr) (ha : acc.HasType Γ .boolean)
      (hr : ∀ e ∈ rest, e.HasType Γ .boolean) :
      (rest.foldl (fun acc next ↦ .binary .and acc next .boolean) acc).HasType Γ .boolean := by
    induction rest generalizing acc with
    | nil => exact ha
    | cons e rest ih =>
      obtain ⟨he, hr⟩ := List.forall_mem_cons.1 hr
      exact ih _ (.combine rfl rfl (fun _ ↦ rfl) ha he) hr
  cases conditions with
  | nil => exact .bool true
  | cons e rest =>
    obtain ⟨he, hr⟩ := List.forall_mem_cons.1 h
    exact hfold rest e he hr

/-- A state of a machine with `n` states is well typed, and it leads to a state after the first one
or to the last one. -/
structure Block.Sound (Γ : Interface) (n : Nat) (b : Block) : Prop where
  body : HwStmt.AllTyped Γ b.body
  transition : b.transition.Typed Γ
  targets : ∀ x ∈ b.transition.targets, x = .finished ∨ ∃ j, x = .state j ∧ 0 < j ∧ j < n

theorem Block.Sound.mono {n m : Nat} {b : Block} (h : b.Sound Γ n) (hnm : n ≤ m) : b.Sound Γ m := by
  refine ⟨h.body, h.transition, fun x hx ↦ (h.targets x hx).imp_right ?_⟩
  rintro ⟨j, hj, hpos, hlt⟩
  exact ⟨j, hj, hpos, hlt.trans_le hnm⟩

def Code.Sound (Γ : Interface) (code : Code) : Prop := ∀ b ∈ code, b.Sound Γ code.length

namespace Code.Sound

variable {code : Code}

theorem modify (h : code.Sound Γ) (i : Nat) {f : Block → Block}
    (hf : ∀ b, b.Sound Γ code.length → (f b).Sound Γ code.length) : Sound Γ (code.modify i f) := by
  intro b hb
  rw [List.length_modify]
  obtain ⟨j, hj⟩ := List.mem_iff_getElem?.1 hb
  rw [List.getElem?_modify] at hj
  obtain ⟨b', hb', rfl⟩ := Option.map_eq_some_iff.1 hj
  have hs := h b' (List.mem_of_getElem? hb')
  split
  · exact hf b' hs
  · exact hs

theorem append (h : code.Sound Γ) {more : Code}
    (hmore : ∀ b ∈ more, b.Sound Γ (code.length + more.length)) : Sound Γ (code ++ more) := by
  intro b hb
  rw [List.length_append]
  rcases List.mem_append.1 hb with hb | hb
  · exact (h b hb).mono (Nat.le_add_right _ _)
  · exact hmore b hb

theorem redirect (h : code.Sound Γ) (i : Nat) {t : Transition DraftTarget} (ht : t.Typed Γ)
    (htargets : ∀ x ∈ t.targets, x = .finished ∨ ∃ j, x = .state j ∧ 0 < j ∧ j < code.length) :
    Sound Γ (code.redirect i t) :=
  h.modify i fun _ hb ↦ ⟨hb.body, ht, htargets⟩

end Code.Sound

namespace Invocation

variable {c : Invocation} {calls : List Invocation}

theorem Sound.pin (h : c.Sound Γ) {kind : PinKind} {type : HwType}
    (hp : Γ.program.HasPin c.target kind type) : (c.pin kind).HasType Γ type :=
  .invocation h.slot hp

theorem Sound.finished (h : c.Sound Γ) : c.finished.HasType Γ .boolean :=
  .signal (h.pin .finished)

theorem Sound.startBody (h : c.Sound Γ) : HwStmt.AllTyped Γ c.startBody := by
  refine HwStmt.allTyped_iff.2 (List.forall_mem_append.2 ⟨fun s hs ↦ ?_, fun s hs ↦ ?_⟩)
  · obtain ⟨a, ha, rfl⟩ := List.mem_map.1 hs
    obtain ⟨type, hpin, hv⟩ := h.arguments a ha
    exact HwStmt.typed_drive (h.pin hpin) hv
  · obtain rfl := List.mem_singleton.1 hs
    exact HwStmt.typed_drive (h.pin .started) (.bool true)

theorem hasType_idle (h : ∀ c ∈ calls, c.Sound Γ) : (idle calls).HasType Γ .boolean := by
  refine HwExpr.hasType_all fun e he ↦ ?_
  obtain ⟨c, hc, rfl⟩ := List.mem_map.1 he
  exact .unary nofun (h c hc).finished

theorem hasType_finished (h : ∀ c ∈ calls, c.Sound Γ) :
    (HwExpr.all (calls.map Invocation.finished)).HasType Γ .boolean := by
  refine HwExpr.hasType_all fun e he ↦ ?_
  obtain ⟨c, hc, rfl⟩ := List.mem_map.1 he
  exact (h c hc).finished

end Invocation

theorem Collects.allTyped {calls : List Invocation} {body : List HwStmt}
    (h : Collects Γ calls body) (hs : ∀ c ∈ calls, c.Sound Γ) : HwStmt.AllTyped Γ body := by
  induction h with
  | nil => trivial
  | value htype hd _ ih =>
    obtain ⟨hc, hrest⟩ := List.forall_mem_cons.1 hs
    obtain ⟨h, hh, hname, hresult⟩ := hc.result
    rw [htype] at hresult
    exact ⟨HwStmt.typed_setVariable hd (.signal (hc.pin (.result hh hname hresult))),
      HwStmt.typed_drive (hc.pin .started) (.bool false), ih hrest⟩
  | void _ _ ih =>
    obtain ⟨hc, hrest⟩ := List.forall_mem_cons.1 hs
    exact ⟨HwStmt.typed_drive (hc.pin .started) (.bool false), ih hrest⟩

theorem Code.sound_exchange {calls : List Invocation} {body : List HwStmt} {n : Nat} (hn : 0 < n)
    (hs : ∀ c ∈ calls, c.Sound Γ) (hc : Collects Γ calls body) :
    ∀ b ∈ Code.exchange calls body n, b.Sound Γ (n + 3) := by
  have hgoto (j : Nat) (hj : 0 < j) (hlt : j < n + 3) :
      ∀ x ∈ [DraftTarget.state j], x = .finished ∨ ∃ j, x = .state j ∧ 0 < j ∧ j < n + 3 :=
    List.forall_mem_singleton.2 (.inr ⟨j, rfl, hj, hlt⟩)
  refine List.forall_mem_cons.2 ⟨⟨?_, trivial, hgoto _ (by omega) (by omega)⟩,
    List.forall_mem_cons.2 ⟨⟨trivial, Invocation.hasType_finished hs, hgoto _ (by omega) (by omega)⟩,
      List.forall_mem_singleton.2 ⟨hc.allTyped hs, trivial, ?_⟩⟩⟩
  · refine HwStmt.allTyped_iff.2 fun s hs' ↦ ?_
    obtain ⟨c, hc, hs'⟩ := List.mem_flatMap.1 hs'
    exact HwStmt.allTyped_iff.1 (hs c hc).startBody s hs'
  · exact List.forall_mem_singleton.2 (.inl rfl)

theorem Move.sound {s t : Site} (h : Move Γ s t) (hg : s.Good) (hs : s.code.Sound Γ) :
    t.code.Sound Γ := by
  cases h with
  | push ht _ =>
    refine hs.modify _ fun b hb ↦ ⟨?_, hb.transition, hb.targets⟩
    exact HwStmt.allTyped_iff.2 (List.forall_mem_append.2
      ⟨HwStmt.allTyped_iff.1 hb.body, List.forall_mem_singleton.2 ht⟩)
  | suspend | leave | ret | resume | release => exact hs
  | fork =>
    refine hs.append (List.forall_mem_singleton.2 ⟨trivial, trivial, ?_⟩)
    exact List.forall_mem_singleton.2 (.inl rfl)
  | settle ht hinto =>
    refine hs.redirect _ ht fun x hx ↦ ?_
    obtain ⟨e, he, rfl⟩ := hinto.2 x hx
    exact .inr ⟨e, rfl, hg.entries e he⟩
  | @exchange code i _ _ _ _ calls body _ _ _ hcalls _ hcollects =>
    have hpos : 0 < code.length := hg.current_pos.trans hg.current_lt
    have hstates := Code.sound_exchange hpos hcalls hcollects
    -- The state that waits leads to the first state of the batch, which is not there yet.
    intro b hb
    have hlen : (code.redirect i (.waitFor (Invocation.idle calls) (.state code.length)) ++
        Code.exchange calls body code.length).length = code.length + 3 := by
      rw [List.length_append, Code.length_redirect]
      rfl
    rw [hlen]
    rcases List.mem_append.1 hb with hb | hb
    · obtain ⟨j, hj⟩ := List.mem_iff_getElem?.1 hb
      rw [Code.redirect, List.getElem?_modify] at hj
      obtain ⟨b', hb', rfl⟩ := Option.map_eq_some_iff.1 hj
      have hold := (hs b' (List.mem_of_getElem? hb')).mono (Nat.le_add_right _ 3)
      split
      · refine ⟨hold.body, Invocation.hasType_idle hcalls, ?_⟩
        exact List.forall_mem_singleton.2 (.inr ⟨_, rfl, hpos, by omega⟩)
      · exact hold
    · exact hstates b hb

theorem Moves.sound {s t : Site} (h : Moves Γ s t) (hg : s.Good) (hs : s.code.Sound Γ) :
    t.code.Sound Γ := by
  induction h with
  | refl => exact hs
  | tail hr hm ih => exact hm.sound (Moves.good hr hg) ih

theorem Site.sound_start : Site.start.code.Sound Γ := by
  refine List.forall_mem_cons.2 ⟨⟨?_, .signal .started, ?_⟩,
    List.forall_mem_singleton.2 ⟨trivial, trivial, List.forall_mem_singleton.2 (.inl rfl)⟩⟩
  · exact ⟨HwStmt.typed_drive .finished (.bool false), trivial⟩
  · exact List.forall_mem_singleton.2 (.inr ⟨1, rfl, Nat.one_pos, Nat.one_lt_two⟩)

end

theorem Transition.targets_map (f : ι → κ) (t : Transition ι) :
    (t.map f).targets = t.targets.map f := by
  cases t <;> rfl

theorem Transition.Typed.map {Γ : Interface} {t : Transition ι} (h : t.Typed Γ) (f : ι → κ) :
    (t.map f).Typed Γ := by
  cases t <;> exact h

/-- What occurs in a state is in scope if the state is well typed. -/
theorem State.hasType_nodes {Γ : Interface} {s : State ι} (hb : HwStmt.AllTyped Γ s.body)
    (ht : s.transition.Typed Γ) {x : HwExpr} (hx : x ∈ s.nodes) : ∃ type, x.HasType Γ type := by
  rcases List.mem_append.1 hx with hx | hx
  · exact hb.nodes x hx
  · exact ht.nodes x hx

namespace Draft

variable {Γ : Interface} {d : Draft}

/-- The states of a draft that is done are well typed if those of the draft are. -/
theorem typed_complete (h : d.code.Sound Γ) {s : State StateId} (hs : s ∈ d.complete) :
    HwStmt.AllTyped Γ s.body ∧ s.transition.Typed Γ := by
  rcases mem_complete hs with ⟨x, hx, rfl⟩ | rfl
  · have hb := h x.block (List.mem_map_of_mem hx)
    exact ⟨hb.body, hb.transition.map _⟩
  · exact ⟨⟨HwStmt.typed_drive .finished (.bool true), trivial⟩, .unary nofun (.signal .started)⟩

theorem number_lt {last : Nat} {x : DraftTarget}
    (hx : x = .finished ∨ ∃ j, x = .state j ∧ 0 < j ∧ j < last) :
    (number last x).toNat < last + 1 := by
  have hle (n : Nat) : (UInt32.ofNat n).toNat ≤ n := by
    rw [UInt32.toNat_ofNat']
    exact Nat.mod_le _ _
  rcases hx with rfl | ⟨j, rfl, -, hj⟩
  · exact Nat.lt_succ_of_le (hle last)
  · exact Nat.lt_succ_of_le ((hle j).trans hj.le)

theorem number_ne_zero {last : Nat} (hpos : 0 < last) (hlast : last < 2 ^ 32) {x : DraftTarget}
    (hx : x = .finished ∨ ∃ j, x = .state j ∧ 0 < j ∧ j < last) : number last x ≠ 0 := by
  have hne {n : Nat} (hn : 0 < n) (hlt : n < 2 ^ 32) : UInt32.ofNat n ≠ 0 := by
    intro h
    have h' := congrArg UInt32.toNat h
    rw [UInt32.toNat_ofNat_of_lt' hlt] at h'
    exact absurd h' hn.ne'
  rcases hx with rfl | ⟨j, rfl, hj, hlt⟩
  · exact hne hpos hlast
  · exact hne hj (hlt.trans hlast)

end Draft

/-- Every component is closed and well typed. -/
theorem Lowering.wellFormed_component {l : Lowering} {c : Component} (h : l.component = .ok c) :
    c.WellFormed l.program := by
  obtain ⟨d, E, hstates, hm⟩ := moves_component h
  have hgood := hm.good Site.good_start
  have hsound : d.code.Sound _ := hm.sound Site.good_start Site.sound_start
  have hzero : d.code[0]? = some .idle :=
    (hm.fixed Site.good_start Nat.two_pos ⟨nofun, fun _ ↦ Nat.zero_ne_one⟩).2
  have htwo : 2 ≤ d.nextState := by
    have hle := hm.length_le
    rwa [Draft.site, d.length_code] at hle
  have hlen : c.states.length = d.nextState + 1 := by rw [hstates, d.length_complete]
  have htyped (s) (hs : s ∈ c.states) := Draft.typed_complete hsound (hstates ▸ hs)
  have hnodes {s} (hs : s ∈ c.states) {x : HwExpr} (hx : x ∈ s.nodes) :
      ∃ type, x.HasType (c.interface l.program) type :=
    State.hasType_nodes (htyped s hs).1 (htyped s hs).2 hx
  have hstate {i : Nat} {s : State StateId} (hs : c.states[i]? = some s) (hi : i < d.nextState) :
      ∃ x, d.states[i]? = some x ∧ s = x.rename (Draft.number d.nextState) := by
    rw [hstates, Draft.getElem?_complete hi] at hs
    obtain ⟨x, hx, rfl⟩ := Option.map_eq_some_iff.1 hs
    exact ⟨x, hx, rfl⟩
  have hlast := d.getElem?_complete_last
  rw [← hstates] at hlast
  constructor
  case three_states => omega
  case ids =>
    intro i s hs
    have hi := (List.getElem?_eq_some_iff.1 hs).1
    rcases Nat.lt_succ_iff_lt_or_eq.1 (hlen ▸ hi) with hi | rfl
    · obtain ⟨x, hx, rfl⟩ := hstate hs hi
      have hid := hgood.ids i x.block (by rw [Draft.site, d.getElem?_code, hx]; rfl)
      exact congrArg (Draft.number d.nextState) hid
    · obtain rfl := Option.some.inj (hs.symm.trans hlast)
      rfl
  case first =>
    rw [d.getElem?_code] at hzero
    obtain ⟨x, hx, hblock⟩ := Option.map_eq_some_iff.1 hzero
    refine ⟨x.rename (Draft.number d.nextState), ?_, congrArg Block.body hblock, ?_⟩
    · rw [hstates, Draft.getElem?_complete (by omega), hx, Option.map_some]
    · exact congrArg (Transition.map _) (congrArg Block.transition hblock)
  case last =>
    rw [hlen]
    exact ⟨_, hlast, rfl, rfl⟩
  case targets =>
    intro s hs t ht
    rw [hlen]
    rcases Draft.mem_complete (hstates ▸ hs) with ⟨x, hx, rfl⟩ | rfl
    · rw [State.rename, Transition.targets_map] at ht
      obtain ⟨y, hy, rfl⟩ := List.mem_map.1 ht
      refine Draft.number_lt ?_
      simpa using (hsound x.block (List.mem_map_of_mem hx)).targets y hy
    · obtain rfl := List.mem_singleton.1 ht
      exact Nat.succ_pos _
  case restart =>
    intro hbound i s hs hi hmem
    obtain ⟨x, hx, rfl⟩ := hstate hs (by omega)
    rw [State.rename, Transition.targets_map] at hmem
    obtain ⟨y, hy, hzero⟩ := List.mem_map.1 hmem
    have hy := (hsound x.block (List.mem_map_of_mem (List.mem_of_getElem? hx))).targets y hy
    exact Draft.number_ne_zero (by omega) (by omega) (by simpa using hy) hzero
  case declared =>
    intro s hs x hx
    obtain ⟨type, ht⟩ := hnodes hs hx
    obtain ⟨e, he, hname, -⟩ := ht.declares
    exact ⟨e, he, hname⟩
  case parameters =>
    intro s hs x hx
    obtain ⟨type, ht⟩ := hnodes hs hx
    cases ht.ofSignal with
    | parameter hp => exact ⟨_, hp, rfl⟩
  case result =>
    intro s hs hx
    obtain ⟨type, ht⟩ := hnodes hs hx
    cases ht.ofSignal with
    | result hr => exact Option.isSome_of_eq_some hr
  case slots =>
    intro s hs target slot pin hx
    obtain ⟨type, ht⟩ := hnodes hs hx
    cases ht.ofSignal with
    | invocation hslot _ => exact hslot
  case typed => exact htyped

/-- A member with a loop, conversions and two calls is closed and well typed. -/
theorem wellFormed_pairedCaller : ∃ (l : Lowering) (c : Component),
    l.component = .ok c ∧ c.states.length = 9 ∧ c.WellFormed l.program := by
  obtain ⟨l, c, -, hc, hlength⟩ := exists_pairedCaller
  exact ⟨l, c, hc, hlength, Lowering.wellFormed_component hc⟩

end Fabric
