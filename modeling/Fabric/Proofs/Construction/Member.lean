import Fabric.Proofs.Construction.Stmt
import Fabric.Proofs.Machine.Basic

namespace Fabric

namespace Draft

variable {Γ : Interface} {d d' : Draft}

def callExits (d : Draft) : List Nat :=
  d.frame.returns ++ d.exit?.toList

theorem leaveCall_eq (d : Draft) (callee : String) (outer : Frame) :
    d.leaveCall callee outer =
      if d.callExits = [d.current] then
        { { d with frame := outer }.setTransition d.current (.goto .finished) with
          isClosed := false }
      else (({ d with frame := outer }.addState ("return from " ++ callee)).linkAll d.callExits
        d.nextState).enter d.nextState := by
  have hexits : d.callExits = d.frame.returns ++ if d.isClosed then [] else [d.current] := by
    unfold callExits exit?
    cases d.isClosed <;> rfl
  rw [hexits]
  rfl

theorem sameScope_leaveCall (d : Draft) (callee : String) (outer : Frame) :
    SameScope { d with frame := outer } (d.leaveCall callee outer) := by
  rw [leaveCall_eq]
  split
  · exact ⟨rfl, rfl, rfl, rfl, rfl, rfl⟩
  · have h := sameScope_linkAll d.callExits d.nextState
      ({ d with frame := outer }.addState ("return from " ++ callee))
    exact ⟨h.1, h.2, h.3, h.4, h.5, h.6⟩

theorem isClosed_leaveCall (d : Draft) (callee : String) (outer : Frame) :
    (d.leaveCall callee outer).isClosed = false := by
  rw [leaveCall_eq]
  split <;> rfl

/-- If the open state is the only exit of an expanded call, it stays open or is opened again. -/
theorem moves_stay {L R : Multiset Nat} {E : Set Nat} (hexits : d.callExits = [d.current])
    (hg : (d.site L (↑d.frame.returns + R) E).Good) (outer : Frame) :
    Moves Γ (d.site L (↑d.frame.returns + R) E)
      (({ { d with frame := outer }.setTransition d.current (.goto .finished) with
        isClosed := false } : Draft).site L R E) := by
  have hcases : d.isClosed = false ∧ d.frame.returns = [] ∨
      d.isClosed = true ∧ d.frame.returns = [d.current] := by
    unfold callExits exit? at hexits
    cases hclosed : d.isClosed with
    | false => exact .inl ⟨rfl, by simpa [hclosed] using hexits⟩
    | true => exact .inr ⟨rfl, by simpa [hclosed] using hexits⟩
  have hd : d.code.Dangling E d.current := by
    obtain ⟨hopen, -⟩ | ⟨-, hone⟩ := hcases
    · exact (hg.opened hopen).2
    · have hmem : d.current ∈ L + (↑d.frame.returns + R) := by simp [hone]
      exact (hg.pending d.current hmem).2
  have hsite : ({ { d with frame := outer }.setTransition d.current (.goto .finished) with
      isClosed := false } : Draft).site L R E = ⟨d.code, d.current, false, L, R, E⟩ := by
    unfold site
    congr 1
    exact (({ d with frame := outer } : Draft).code_setTransition d.current _).trans hd.redirect_eq
  rw [hsite]
  unfold site
  obtain ⟨hopen, hnone⟩ | ⟨hclosed, hone⟩ := hcases
  · rw [hnone, hopen, Multiset.coe_nil, zero_add]
  · rw [hone, hclosed, Multiset.coe_singleton, Multiset.singleton_add]
    exact .single .resume

theorem moves_leaveCall {L R : Multiset Nat} {E : Set Nat}
    (hg : (d.site L (↑d.frame.returns + R) E).Good) (callee : String) (outer : Frame) :
    ∃ E', Moves Γ (d.site L (↑d.frame.returns + R) E)
      ((d.leaveCall callee outer).site L R E') := by
  rw [leaveCall_eq]
  split
  next hexits => exact ⟨E, moves_stay hexits hg outer⟩
  next =>
    have hrelease : Moves Γ (d.site L (↑d.frame.returns + R) E)
        (d.site (↑d.frame.returns + L) R E) := Moves.releaseAll d.frame.returns
    have hsuspend := Moves.suspend (Γ := Γ) (L := ↑d.frame.returns + L) (R := R) (E := E) d
    have hloose : (↑d.exit?.toList + (↑d.frame.returns + L) : Multiset Nat) =
        ↑d.callExits + L := by
      rw [callExits, ← Multiset.coe_add]
      abel
    rw [hloose] at hsuspend
    have hfork : Moves Γ ⟨d.code, d.current, true, ↑d.callExits + L, R, E⟩ _ := Moves.fork
    have hall : Moves Γ ⟨d.code ++ [Block.fresh d.code.length], d.code.length, false,
        ↑d.callExits + L, R, insert d.code.length E⟩ _ :=
      Moves.settleAll (Set.mem_insert _ _) d.callExits _
    refine ⟨insert d.nextState E, ?_⟩
    unfold site
    rw [code_enter, code_linkAll, code_addState]
    rw [d.length_code] at hfork hall
    have hlen : ({ d with frame := outer } : Draft).code.length = d.nextState := d.length_code
    rw [hlen]
    exact ((hrelease.trans hsuspend).trans hfork).trans hall

end Draft

theorem Evolves.call {Γ : Interface} {P Q : Prop} {B C R : List Nat} {d d' : Draft} {f : Frame}
    {n : Nat} (h : Evolves Γ P B C R { d with expansions := n, frame := f } d' Q)
    (hf : f.returns = []) (callee : String) :
    Evolves Γ P B C [] d (d'.leaveCall callee d.frame) Q := by
  have hs := d'.sameScope_leaveCall callee d.frame
  have hreturns : d'.frame.returns = R := by
    rw [h.frame]
    simp [hf]
  refine ⟨⟨?_, fun key ↦ ?_, ?_, h.exits, ?_, fun _ ↦ rfl⟩, fun hc hP ↦ ?_⟩
  · rw [hs.declarations]
    exact h.declared
  · unfold Draft.nextSlot
    rw [hs.slots]
    exact h.slots key
  · exact hs.loops.trans h.loops
  · rw [hs.frame, List.append_nil]
  · have hc' : Γ.Covers d' := by
      unfold Interface.Covers
      rw [← hs.declarations]
      exact hc
    obtain ⟨hQ, hm⟩ := h.run hc' hP
    refine ⟨hQ, fun L R₀ E hg ↦ ?_⟩
    obtain ⟨E₁, h₁⟩ := hm L R₀ E hg
    have hg₁ := h₁.good hg
    rw [← hreturns] at h₁ hg₁
    obtain ⟨E₂, h₂⟩ := Draft.moves_leaveCall (Γ := Γ) hg₁ callee d.frame
    refine ⟨E₂, ?_⟩
    rw [Multiset.coe_nil, zero_add]
    exact Relation.ReflTransGen.trans h₁ h₂

namespace Lowering

variable {l : Lowering} {Γ : Interface} {d d' : Draft}

theorem typed_enterCall {callee simpleName : String} {returnType : Option HwType}
    {returnVariable : Option String} (hs : d.Scoped Γ)
    (hr : ∀ type, returnType = some type → ∃ name, returnVariable = some name ∧
      Γ.Declares name type) :
    (d.enterCall callee simpleName returnType returnVariable).Scoped Γ := by
  refine ⟨⟨nofun, fun type ht ↦ ?_⟩, hs.results⟩
  obtain ⟨name, rfl, hd⟩ := hr type ht
  exact hd

def resultVariable (callee : String) (returnType : Option HwType) (d : Draft) :
    Option (String × HwType) × Draft :=
  match returnType with
  | some type =>
    let (name, d) := d.temporary type ("value returned by " ++ callee)
    (some (name, type), d)
  | none => (none, d)

theorem reaches_resultVariable (callee : String) (returnType : Option HwType)
    (ho : d.isClosed = false) :
    d.Reaches Γ True (resultVariable callee returnType d).2
      (∀ type, returnType = some type → ∃ name,
        (resultVariable callee returnType d).1 = some (name, type) ∧ Γ.Declares name type) := by
  cases returnType with
  | none => exact .refl ho fun _ ↦ nofun
  | some type =>
    refine (Draft.Reaches.temporary ho type _).conseq id fun _ hd type' htype ↦ ?_
    obtain rfl := Option.some.inj htype
    exact ⟨_, rfl, hd⟩

theorem resultVariable_type {callee : String} {returnType : Option HwType} {name : String}
    {type : HwType} (h : (resultVariable callee returnType d).1 = some (name, type)) :
    returnType = some type := by
  cases returnType with
  | none => exact nomatch h
  | some type' => exact congrArg some (Prod.mk.inj (Option.some.inj h)).2

theorem expand_eq {body : Stmt → Draft → Synthesis Draft} {h : MemberHandle} {args : List Expr}
    {v : Option Lowered} (he : l.expand body h args d = .ok (v, d')) :
    ∃ code arguments d₁ returnType d₂,
      (l.program.tree.method h).body = some code ∧
      l.arguments h args d = .ok (arguments, d₁) ∧
      l.resultType h = .ok returnType ∧
      let callee := l.program.tree.memberFullName h
      let value := (resultVariable callee returnType d₁).1
      let d₀ := (resultVariable callee returnType d₁).2
      body code ((d₀.enterCall callee (String.ofList (simpleName
        (l.program.tree.method h).name.toList)) returnType (value.map Prod.fst)).bindArguments
          callee arguments) = .ok d₂ ∧
      v = value.map (fun x ↦ .ofVariable x.1 x.2) ∧ d' = d₂.leaveCall callee d₀.frame := by
  unfold expand at he
  obtain ⟨code, hcode, he⟩ := Synthesis.bind_eq_ok.1 he
  obtain ⟨⟨arguments, d₁⟩, harguments, he⟩ := Synthesis.bind_eq_ok.1 he
  obtain ⟨returnType, htype, he⟩ := Synthesis.bind_eq_ok.1 he
  obtain ⟨-, -, he⟩ := Synthesis.bind_eq_ok.1 he
  obtain ⟨d₂, hbody, he⟩ := Synthesis.bind_eq_ok.1 he
  obtain ⟨rfl, rfl⟩ := Prod.mk.inj (Except.ok.inj he)
  refine ⟨code, arguments, d₁, returnType, d₂, require_eq_ok.1 hcode, harguments, htype, ?_⟩
  cases returnType with
  | none => exact ⟨hbody, rfl, rfl⟩
  | some type => exact ⟨hbody, rfl, rfl⟩

/-- Expanding a call keeps drafts well typed if lowering the body of the callee does. -/
theorem sound_expand (hΓ : Γ.Sees l) {body : Stmt → Draft → Synthesis Draft}
    (hbody : ∀ {s : Stmt} {d d' : Draft}, (Γ.program.CallsGrouped → s.Grouped l.program) →
      body s d = .ok d' → StmtEvolves Γ d d') : Expansion.Sound Γ (l.expand body) := by
  intro h args d d' v hh he ho
  obtain ⟨code, arguments, d₁, returnType, d₂, hcode, harguments, -, hrun, rfl, rfl⟩ := expand_eq he
  let callee := l.program.tree.memberFullName h
  let x := resultVariable callee returnType d₁
  let d₀ := x.2.enterCall callee (String.ofList (simpleName (l.program.tree.method h).name.toList))
    returnType (x.1.map Prod.fst)
  have h₁ := (reaches_arguments (Γ := Γ) harguments ho).1
  have h₂ : d.Reaches Γ True x.2 ((∀ a ∈ arguments, a.value.Typed Γ) ∧
      ∀ type, returnType = some type → ∃ name, x.1 = some (name, type) ∧ Γ.Declares name type) :=
    h₁.seq (reaches_resultVariable callee returnType h₁.opened) (fun _ _ ↦ trivial)
      fun _ ha hx ↦ ⟨ha, hx⟩
  have ho₀ : d₀.isClosed = false := h₂.opened
  have h₃ := Draft.reaches_bindArguments (Γ := Γ) callee arguments ho₀
  obtain ⟨B₁, C₁, he₃⟩ := h₃.evolves
  have hgroup (hp : Γ.program.CallsGrouped) : code.Grouped l.program :=
    hΓ.program ▸ hp h hh code (hΓ.program ▸ hcode)
  obtain ⟨B₂, C₂, R, he₄⟩ := hbody hgroup hrun
  have hinner : Evolves Γ (d₀.Scoped Γ ∧ ∀ a ∈ arguments, a.value.Typed Γ) (B₁ ++ B₂) (C₁ ++ C₂)
      ([] ++ R) d₀ d₂ (d₂.Scoped Γ) :=
    he₃.seq he₄ (fun _ h ↦ h.1) fun _ _ h ↦ h
  have hcall := hinner.call (d := x.2) rfl callee
  have hs := d₂.sameScope_leaveCall callee x.2.frame
  have hstep : x.2.Reaches Γ ((∀ a ∈ arguments, a.value.Typed Γ) ∧ ∀ type, returnType = some type →
      ∃ name, x.1 = some (name, type) ∧ Γ.Declares name type) (d₂.leaveCall callee x.2.frame)
      True := by
    refine ⟨d₂.isClosed_leaveCall callee _, _, _, hcall.conseq (fun hp ↦ ⟨?_, hp.2.1⟩)
      fun hp hq ↦ ⟨⟨?_, ?_⟩, trivial⟩⟩
    · refine typed_enterCall hp.1 fun type ht ↦ ?_
      obtain ⟨name, hname, hd⟩ := hp.2.2 type ht
      exact ⟨name, by rw [hname]; rfl, hd⟩
    · rw [hs.frame]
      exact hp.1.frame
    · rw [hs.results]
      exact hq.results
  refine h₂.seq hstep (fun _ h ↦ h) fun _ hx _ w hw ↦ ?_
  obtain ⟨⟨name, type⟩, hy, rfl⟩ := Option.map_eq_some_iff.1 hw
  obtain ⟨name', hname', hd⟩ := hx.2 type (resultVariable_type hy)
  have heq := hy.symm.trans hname'
  obtain ⟨rfl, -⟩ := Prod.mk.inj (Option.some.inj heq)
  exact .variable hd

end Lowering

def Block.idle : Block :=
  ⟨.state 0, [.drive (.own .finished) (.bool false)], .waitFor (.signal (.own .started)) (.state 1)⟩

def Site.start : Site := ⟨[.idle, .fresh 1], 1, false, 0, 0, {1}⟩

theorem Site.good_start : Site.start.Good where
  current_pos := Nat.one_pos
  current_lt := by simp [start]
  ids i b hb := by
    match i with
    | 0 => exact Option.some.inj hb ▸ rfl
    | 1 => exact Option.some.inj hb ▸ rfl
    | i + 2 => exact nomatch hb
  entries e he := by
    obtain rfl : e = 1 := he
    exact ⟨Nat.one_pos, by simp [start]⟩
  nodup := Multiset.nodup_zero
  pending := nofun
  opened _ := ⟨nofun, .fresh 1, rfl, rfl, fun _ ↦ rfl⟩

def Component.interface (c : Component) (p : Program) : Interface :=
  ⟨p, c.parameters, c.returnType, c.invocations, c.declarations⟩

namespace Draft

variable {Γ : Interface} {d : Draft}

def takeParameter (d : Draft) (p : ComponentPin) : Draft :=
  let (name, d) := d.declare p.name p.type ("parameter " ++ p.name)
  (d.bind p.name (.variable name p.type)).push
    (.setVariable name (.signal (.own (.parameter p.name))))

theorem begin_eq (d : Draft) (parameters : List ComponentPin) :
    d.begin parameters = parameters.foldl takeParameter (d.begin []) :=
  rfl

theorem site_begin (member : String) (returnType : Option HwType) :
    ((empty member returnType).begin []).site 0 0 {1} = Site.start :=
  rfl

theorem scoped_begin {member : String} {returnType : Option HwType}
    (h : ∀ type, returnType = some type → Γ.returnType = some type) :
    ((empty member returnType).begin []).Scoped Γ :=
  ⟨⟨nofun, h⟩, nofun⟩

theorem reaches_takeParameters (parameters : List ComponentPin) (ho : d.isClosed = false) :
    d.Reaches Γ (∀ p ∈ parameters, p ∈ Γ.parameters) (parameters.foldl takeParameter d) True := by
  induction parameters generalizing d with
  | nil => exact .refl ho fun _ ↦ trivial
  | cons p rest ih =>
    let x := d.declare p.name p.type ("parameter " ++ p.name)
    have hx : d.Reaches Γ (∀ q ∈ p :: rest, q ∈ Γ.parameters) x.2 (Γ.Declares x.1 p.type) :=
      .declare ho _ _ _
    have hb := hx.seq (.bind hx.opened p.name (.variable x.1 p.type)) (fun _ hd ↦ hd)
      fun _ hd _ ↦ hd
    have hpush : (x.2.bind p.name (.variable x.1 p.type)).Reaches Γ
        ((∀ q ∈ p :: rest, q ∈ Γ.parameters) ∧ Γ.Declares x.1 p.type) (d.takeParameter p) True := by
      refine .ofPlainly hb.opened ((evolves_push hb.opened (HwStmt.isPlain_setVariable _ _)).conseq
        (fun hp ↦ ⟨hp.1, HwStmt.typed_setVariable hp.2.2 ?_⟩) fun _ hq ↦ ⟨hq, trivial⟩)
      exact .signal (.parameter (hp.2.1 p List.mem_cons_self))
    have hstep := hb.seq hpush (fun hall hd ↦ ⟨hall, hd⟩) fun _ _ h ↦ h
    exact hstep.seq (ih hstep.opened) (fun hall _ q hq ↦ hall q (List.mem_cons_of_mem _ hq))
      fun _ _ h ↦ h

end Draft

namespace Lowering

variable {l : Lowering} {Γ : Interface} {d d' : Draft}

/-- The bodies that are expanded in a member have no calls to expand. -/
theorem sound_expandBody (hΓ : Γ.Sees l) : (l.expand (l.stmt noExpansion)).Sound Γ :=
  sound_expand hΓ fun hg hs ↦ evolves_stmt hΓ (sound_noExpansion Γ) _ hg hs

theorem evolves_body (hΓ : Γ.Sees l) {s : Stmt}
    (hgroup : Γ.program.CallsGrouped → s.Grouped l.program) (h : l.body s d = .ok d') :
    StmtEvolves Γ d d' :=
  evolves_stmt hΓ (sound_expandBody hΓ) s hgroup h

theorem component_eq {c : Component} (h : l.component = .ok c) :
    ∃ code d, (l.program.tree.method l.member.handle).body = some code ∧
      (l.program.tree.method l.member.handle).parameters.mapM l.pin = .ok c.parameters ∧
      l.resultType l.member.handle = .ok c.returnType ∧
      l.body code ((Draft.empty l.member.fullName c.returnType).begin c.parameters) = .ok d ∧
      c.declarations = d.declarations ∧ c.states = d.complete ∧
      c.invocations = l.member.invocations.entries.map fun (target, slots) ↦ ⟨target, slots⟩ := by
  unfold component at h
  obtain ⟨code, hcode, h⟩ := Synthesis.bind_eq_ok.1 h
  obtain ⟨parameters, hparameters, h⟩ := Synthesis.bind_eq_ok.1 h
  obtain ⟨returnType, hreturn, h⟩ := Synthesis.bind_eq_ok.1 h
  obtain ⟨d, hd, h⟩ := Synthesis.bind_eq_ok.1 h
  obtain rfl := Except.ok.inj h
  exact ⟨code, d, require_eq_ok.1 hcode, hparameters, hreturn, hd, rfl, rfl, rfl⟩

theorem mem_handles_of_body {t : SyntaxTree} {h : MemberHandle} {code : Stmt}
    (hb : (t.method h).body = some code) : h ∈ t.handles := by
  refine SyntaxTree.mem_handles_iff.2 ?_
  unfold SyntaxTree.method SyntaxTree.declaringType at hb
  simp only [List.getD_eq_getElem?_getD] at hb
  cases ht : t.types[h.typePos]? with
  | none =>
    rw [ht] at hb
    exact nomatch hb
  | some x =>
    refine ⟨x, rfl, ?_⟩
    rw [ht, Option.getD_some] at hb
    by_contra hlt
    rw [List.getElem?_eq_none (Nat.le_of_not_gt hlt)] at hb
    exact nomatch hb

/-- The states of a component are made by moves from the two first ones, and no exit is left
loose. -/
theorem moves_component {c : Component} (h : l.component = .ok c) :
    ∃ (d : Draft) (E : Set Nat), c.states = d.complete ∧
      Moves (c.interface l.program) .start (d.site 0 0 E) := by
  obtain ⟨code, d, hcode, -, -, hbody, hdeclarations, hstates, hinvocations⟩ := component_eq h
  let Γ := c.interface l.program
  have hΓ : Γ.Sees l := ⟨rfl, hinvocations⟩
  let d₀ := (Draft.empty l.member.fullName c.returnType).begin []
  have hgroup (hp : Γ.program.CallsGrouped) : code.Grouped l.program :=
    hp _ (mem_handles_of_body hcode) code hcode
  obtain ⟨B, C, he₁⟩ := (Draft.reaches_takeParameters (Γ := Γ) (d := d₀) c.parameters rfl).evolves
  obtain ⟨B', C', R, he₂⟩ := evolves_body hΓ hgroup hbody
  rw [Draft.begin_eq] at he₂
  have he := he₁.seq he₂ (S := True) (fun _ h ↦ h.1) fun _ _ _ ↦ trivial
  have hcovers : d.declarations ⊆ c.declarations := by rw [hdeclarations]; exact List.Subset.refl _
  obtain ⟨E, hm⟩ := (he.run hcovers ⟨Draft.scoped_begin fun _ h ↦ h, fun _ h ↦ h⟩).2 0 0 {1}
    (Draft.site_begin _ _ ▸ Site.good_start)
  obtain ⟨hB, hC⟩ := he.exits rfl
  refine ⟨d, E, hstates, ?_⟩
  rw [Draft.site_begin] at hm
  rwa [hB, hC, he.returns rfl, Multiset.coe_nil, add_zero, add_zero] at hm

end Lowering

namespace Draft

def number (last : Nat) : DraftTarget → StateId
  | .state index => UInt32.ofNat index
  | .finished => UInt32.ofNat last

def lastState (index : Nat) : State DraftTarget :=
  ⟨.state index, "finished", [.drive (.own .finished) (.bool true)], 0,
    .waitFor (.unary .not (.signal (.own .started))) (.state 0)⟩

theorem complete_eq (d : Draft) :
    d.complete = (d.states ++ [lastState d.nextState]).map (State.rename (number d.nextState)) := by
  have hmodify (f : State DraftTarget → State DraftTarget) (s : State DraftTarget) :
      (d.states ++ [s]).modify d.states.length f = d.states ++ [f s] := by
    have h := modify_append_right d.states [s] 0 f
    rwa [Nat.add_zero, List.modify_zero_cons] at h
  unfold complete
  simp only [addState, setTransition, modifyState, hmodify]
  rfl

theorem length_complete (d : Draft) : d.complete.length = d.nextState + 1 := by
  rw [complete_eq, List.length_map, List.length_append, nextState, List.length_singleton]

theorem getElem?_complete {d : Draft} {i : Nat} (hi : i < d.nextState) :
    d.complete[i]? = d.states[i]?.map (State.rename (number d.nextState)) := by
  rw [complete_eq, List.getElem?_map, List.getElem?_append_left hi]

theorem getElem?_complete_last (d : Draft) :
    d.complete[d.nextState]? = some ((lastState d.nextState).rename (number d.nextState)) := by
  rw [complete_eq, List.getElem?_map, nextState, List.getElem?_concat_length, Option.map_some]

theorem mem_complete {d : Draft} {s : State StateId} (h : s ∈ d.complete) :
    (∃ x ∈ d.states, s = x.rename (number d.nextState)) ∨
      s = (lastState d.nextState).rename (number d.nextState) := by
  rw [complete_eq, List.map_append] at h
  rcases List.mem_append.1 h with h | h
  · obtain ⟨x, hx, rfl⟩ := List.mem_map.1 h
    exact .inl ⟨x, hx, rfl⟩
  · exact .inr (List.mem_singleton.1 h)

theorem getElem?_code (d : Draft) (i : Nat) : d.code[i]? = d.states[i]?.map State.block :=
  List.getElem?_map ..

end Draft

end Fabric
