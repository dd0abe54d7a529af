import Fabric.Proofs.Construction.Follow
import Fabric.Proofs.Construction.Member
import Fabric.Proofs.Source.Stmt

namespace Fabric

/-- The machine of a component realizes the draft from which it was made. -/
theorem Draft.realizes_complete {c : Component} {d : Draft} (hstates : c.states = d.complete)
    (hsize : c.states.length ≤ 2 ^ 32) :
    c.machine.Realizes (Draft.number d.nextState) d.code := by
  rw [hstates, d.length_complete] at hsize
  have hnumber {i : Nat} (hi : i ≤ d.nextState) : (UInt32.ofNat i).toNat = i :=
    UInt32.toNat_ofNat_of_lt' (by omega : i < 2 ^ 32)
  refine ⟨fun {i b} hb ↦ ?_, fun i hi heq ↦ ?_⟩
  · have hlt := (List.getElem?_eq_some_iff.1 hb).1
    rw [d.length_code] at hlt
    rw [d.getElem?_code] at hb
    obtain ⟨s, hs, rfl⟩ := Option.map_eq_some_iff.1 hb
    refine ⟨s.rename (Draft.number d.nextState), ?_, rfl, rfl⟩
    rw [Component.machine, Draft.number, hnumber hlt.le, hstates, Draft.getElem?_complete hlt, hs,
      Option.map_some]
  · rw [d.length_code] at hi
    have hlast := congrArg UInt32.toNat heq
    rw [Draft.number, Draft.number, hnumber hi.le, hnumber (Nat.le_refl _)] at hlast
    omega

theorem Draft.finishedState_eq {c : Component} {d : Draft} (hstates : c.states = d.complete) :
    c.finishedState = Draft.number d.nextState .finished := by
  rw [Component.finishedState, hstates, d.length_complete, Nat.add_sub_cancel]
  rfl

namespace Execution

variable {V : Type} {I : Interpretation V} {c : Component} {x : Execution I c.machine}

variable (x) in
def Reaches (state : StateId) (t : Nat) : Prop :=
  (x.config t).state = state ∧ ∀ k < t, (x.config k).state ≠ state

theorem Reaches.unique {state : StateId} {t t' : Nat} (h : x.Reaches state t)
    (h' : x.Reaches state t') : t = t' := by
  have hle : t ≤ t' := Nat.le_of_not_lt fun hlt ↦ h.2 t' hlt h'.1
  have hge : t' ≤ t := Nat.le_of_not_lt fun hlt ↦ h'.2 t hlt h.1
  exact Nat.le_antisymm hle hge

theorem Enters.reaches {d : Draft} (hstates : c.states = d.complete) {t : Nat} {m : Memory V}
    (h : x.Enters (Draft.number d.nextState) t .finished m)
    (hworks : x.Works (Draft.number d.nextState) 0 t) :
    x.Reaches c.finishedState t ∧ (x.config t).memory = m := by
  rw [Draft.finishedState_eq hstates]
  exact ⟨⟨congrArg Configuration.state h, fun k hk ↦ hworks.ne k (Nat.zero_le k) hk⟩,
    congrArg Configuration.memory h⟩

theorem Stands.finishes {ι : Type} {M : Machine ι} {x : Execution I M} {name : DraftTarget → ι}
    {d : Draft} {t : Nat} {m : Memory V} {Γ : Interface} (hM : M.Realizes name d.code)
    (h : x.Stands name t d m) (hd : d.Proper Γ 0) :
    ∃ t', x.Works name t t' ∧ x.Enters name t' .finished m := by
  obtain ⟨b, hb, hat⟩ := h.ran
  obtain ⟨E, hg⟩ := hd.valid
  obtain ⟨-, b', hb', ht, -⟩ := hg.opened h.opened
  obtain rfl := Option.some.inj (hb.symm.trans hb')
  obtain ⟨t', -, hworks, henters⟩ := hat.goto hM hb ht
  exact ⟨t', hworks, henters⟩

end Execution

def Memory.takeParameters {V : Type} (m : Memory V) (inputs : SignalRef → V)
    (parameters : List ComponentPin) : Memory V :=
  parameters.foldl (fun m p ↦ m.setVariable p.name (inputs (.own (.parameter p.name)))) m

namespace Draft

variable {V ι : Type} {I : Interpretation V} {M : Machine ι} {x : Execution I M}
  {name : DraftTarget → ι} {d : Draft} {S : Scope} {calls : List NodeId} {t : Nat} {m : Memory V}
  {parameters : List ComponentPin}

theorem Plain.takeParameter (h : d.Plain (S.own calls)) {p : ComponentPin}
    (ht : S.type? p.name = some p.type) :
    d.takeParameter p = (d.declareLocal p.name p.type ("parameter " ++ p.name)).push
        (.setVariable p.name (.signal (.own (.parameter p.name)))) ∧
      d.Proceeds (S.own calls) [] (d.takeParameter p) := by
  obtain ⟨hname, hproceeds⟩ := h.declare ht ("parameter " ++ p.name)
  have hname : (d.declare p.name p.type ("parameter " ++ p.name)).1 = p.name :=
    hname.trans String.empty_append
  have htake : d.takeParameter p = (d.declareLocal p.name p.type ("parameter " ++ p.name)).push
      (.setVariable (d.declare p.name p.type ("parameter " ++ p.name)).1
        (.signal (.own (.parameter p.name)))) := rfl
  rw [hname] at htake
  exact ⟨htake, htake ▸ hproceeds.trans (.of_eq hproceeds.plain rfl rfl rfl rfl)
    (List.Subset.refl _)⟩

theorem Plain.takeParameters (h : d.Plain (S.own calls))
    (ht : ∀ p ∈ parameters, S.type? p.name = some p.type) :
    d.Proceeds (S.own calls) [] (parameters.foldl Draft.takeParameter d) := by
  induction parameters generalizing d with
  | nil => exact .refl h
  | cons p rest ih =>
    have htake := (h.takeParameter (ht p List.mem_cons_self)).2
    exact htake.trans (ih htake.plain fun q hq ↦ ht q (List.mem_cons_of_mem _ hq))
      (List.Subset.refl _)

theorem Plain.stands_takeParameters (h : d.Plain (S.own calls))
    (ht : ∀ p ∈ parameters, S.type? p.name = some p.type) (hs : x.Stands name t d m) :
    x.Stands name t (parameters.foldl Draft.takeParameter d)
      (m.takeParameters (x.inputs t) parameters) := by
  induction parameters generalizing d m with
  | nil => exact hs
  | cons p rest ih =>
    obtain ⟨htake, hproceeds⟩ := h.takeParameter (ht p List.mem_cons_self)
    refine ih hproceeds.plain (fun q hq ↦ ht q (List.mem_cons_of_mem _ hq)) ?_
    rw [htake]
    exact (hs.of_site site_declareLocal).push _

end Draft

namespace Lowering

variable {V : Type} {I : Interpretation V} {l : Lowering} {c : Component}

/-- How a component begins: the draft after its parameters are taken over. -/
def begun (l : Lowering) (c : Component) : Draft :=
  (Draft.empty l.member.fullName c.returnType).begin c.parameters

theorem plain_start {S : Scope} (calls : List NodeId) (hr : c.returnType = S.result) :
    ((Draft.empty l.member.fullName c.returnType).begin []).Plain (S.own calls) where
  known _ hid := nomatch hid
  qualifier := rfl
  returnVariable := rfl
  isExpanded := rfl
  returnType := hr
  locals := nofun
  declared := nofun
  number := .inl rfl
  unused := nofun

theorem plain_begun {S : Scope} (calls : List NodeId)
    (ht : ∀ p ∈ c.parameters, S.type? p.name = some p.type) (hr : c.returnType = S.result) :
    (l.begun c).Plain (S.own calls) ∧ ∀ ids, (l.begun c).Lacks ids := by
  have hproceeds := (plain_start (l := l) calls hr).takeParameters ht
  exact ⟨hproceeds.plain, fun ids id _ ↦ hproceeds.results id List.not_mem_nil⟩

theorem proper_begun (hcovers : (c.interface l.program).Covers (l.begun c)) :
    (l.begun c).Proper (c.interface l.program) 0 ∧ (l.begun c).loops = [] ∧
      (l.begun c).frame.isExpanded = false ∧ (l.begun c).frame.returns = [] := by
  let Γ := c.interface l.program
  let d₀ := (Draft.empty l.member.fullName c.returnType).begin []
  have hd₀ : d₀.Proper Γ 0 :=
    ⟨Draft.scoped_begin fun _ h ↦ h, {1}, Draft.site_begin _ _ ▸ Site.good_start⟩
  obtain ⟨B, C, he⟩ := (Draft.reaches_takeParameters (Γ := Γ) (d := d₀) c.parameters rfl).evolves
  refine ⟨?_, he.loops, congrArg Frame.isExpanded he.frame, congrArg Frame.returns he.frame⟩
  exact (Draft.Proper.evolve (he.conseq (fun hs ↦ ⟨hs, fun _ h ↦ h⟩) fun _ h ↦ h.1) hcovers hd₀).1

/-- A machine that starts in its first working state stands where its parameters are taken over. -/
theorem stands_begun {S : Scope} (ht : ∀ p ∈ c.parameters, S.type? p.name = some p.type)
    (hr : c.returnType = S.result) {x : Execution I c.machine} {m : Memory V}
    (hstart : x.config 0 = ⟨1, 0, m⟩) (last : Nat) :
    x.Stands (Draft.number last) 0 (l.begun c) (m.takeParameters (x.inputs 0) c.parameters) := by
  let d₀ := (Draft.empty l.member.fullName c.returnType).begin []
  have hs : x.Stands (Draft.number last) 0 d₀ m := ⟨rfl, .fresh 1, rfl, m, hstart, rfl⟩
  exact (plain_start [] hr).stands_takeParameters ht hs

end Lowering

end Fabric
