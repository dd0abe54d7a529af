import Fabric.Lowering.Member
import Fabric.Proofs.Construction.Site

namespace Fabric

namespace Draft

def code (d : Draft) : Code := d.states.map State.block

def site (d : Draft) (L R : Multiset Nat) (E : Set Nat) : Site :=
  ⟨d.code, d.current, d.isClosed, L, R, E⟩

variable (d : Draft) (i j : Nat) (label : String) (t : Transition DraftTarget) (s : HwStmt)

theorem code_modifyState (f : State DraftTarget → State DraftTarget) (g : Block → Block)
    (h : ∀ s, (f s).block = g s.block) : (d.modifyState i f).code = d.code.modify i g := by
  unfold code modifyState
  apply List.ext_getElem?
  intro j
  simp only [List.getElem?_map, List.getElem?_modify, Option.map_eq_map, Option.map_map]
  congr 1
  funext s
  simp only [Function.comp_apply]
  split
  · exact h s
  · rfl

@[simp]
theorem length_code : d.code.length = d.nextState := by simp [code, nextState]

@[simp]
theorem nextState_addState : (d.addState label).nextState = d.nextState + 1 := by
  simp [nextState, addState]

@[simp]
theorem nextState_modifyState (f : State DraftTarget → State DraftTarget) :
    (d.modifyState i f).nextState = d.nextState := by
  simp [nextState, modifyState]

@[simp]
theorem nextState_setTransition : (d.setTransition i t).nextState = d.nextState :=
  d.nextState_modifyState i _

@[simp]
theorem nextState_link : (d.link i j).nextState = d.nextState :=
  d.nextState_modifyState i _

@[simp]
theorem code_addState : (d.addState label).code = d.code ++ [Block.fresh d.code.length] := by
  simp [code, addState, State.block, Block.fresh]

@[simp]
theorem code_setTransition : (d.setTransition i t).code = d.code.redirect i t :=
  d.code_modifyState i _ _ fun _ ↦ rfl

@[simp]
theorem code_link : (d.link i j).code = d.code.redirect i (.goto (.state j)) :=
  d.code_setTransition i _

@[simp]
theorem code_push : (d.push s).code = d.code.extend d.current s :=
  d.code_modifyState _ _ _ fun _ ↦ rfl

/-- A change that a site does not see. -/
theorem code_relabel (f : State DraftTarget → State DraftTarget) (h : ∀ s, (f s).block = s.block) :
    (d.modifyState i f).code = d.code := by
  rw [d.code_modifyState i f id h, List.modify_id]

@[simp]
theorem code_enter : (d.enter i).code = d.code := rfl

structure SameScope (d d' : Draft) : Prop where
  declarations : d'.declarations = d.declarations
  slots : d'.slots = d.slots
  loops : d'.loops = d.loops
  frame : d'.frame = d.frame
  results : d'.results = d.results
  expansions : d'.expansions = d.expansions

namespace SameScope

variable {d} {d' d'' : Draft}

theorem refl : SameScope d d := ⟨rfl, rfl, rfl, rfl, rfl, rfl⟩

theorem trans (h : SameScope d d') (h' : SameScope d' d'') : SameScope d d'' :=
  ⟨h'.1.trans h.1, h'.2.trans h.2, h'.3.trans h.3, h'.4.trans h.4, h'.5.trans h.5, h'.6.trans h.6⟩

end SameScope

theorem sameScope_linkAll (sources : List Nat) (target : Nat) (d : Draft) :
    SameScope d (d.linkAll sources target) := by
  induction sources generalizing d with
  | nil => exact .refl
  | cons i rest ih =>
    have h : SameScope d (d.link i target) := ⟨rfl, rfl, rfl, rfl, rfl, rfl⟩
    exact h.trans (ih (d.link i target))

theorem sameScope_advance : SameScope d (d.advance label) := by
  unfold advance
  dsimp only
  split <;> exact ⟨rfl, rfl, rfl, rfl, rfl, rfl⟩

theorem sameScope_reserve (cost : Binary64) : SameScope d (d.reserve cost) := by
  unfold reserve
  dsimp only
  split
  · split
    · exact ⟨rfl, rfl, rfl, rfl, rfl, rfl⟩
    · exact (d.sameScope_advance _).trans ⟨rfl, rfl, rfl, rfl, rfl, rfl⟩
  · split
    · exact (d.sameScope_advance _).trans ⟨rfl, rfl, rfl, rfl, rfl, rfl⟩
    · exact ⟨rfl, rfl, rfl, rfl, rfl, rfl⟩

theorem sameScope_openState : SameScope d (d.openState label) := by
  unfold openState
  split
  · exact ⟨rfl, rfl, rfl, rfl, rfl, rfl⟩
  · exact d.sameScope_advance label

theorem sameScope_emit (cost : Binary64) : SameScope d (d.emit s cost) :=
  (d.sameScope_reserve cost).trans ⟨rfl, rfl, rfl, rfl, rfl, rfl⟩

/-- Making room leaves a draft as it is or opens the next state. -/
theorem site_reserve (cost : Binary64) :
    (∀ L R E, (d.reserve cost).site L R E = d.site L R E) ∨
      ∀ L R E, (d.reserve cost).site L R E = (d.advance "state").site L R E := by
  have hwait (d : Draft) (wait : UInt32) (L R E) :
      { d.modifyState d.current fun s ↦ { s with waitCycles := wait } with
        budget := .infinity }.site L R E = d.site L R E := by
    unfold site
    congr 1
    exact d.code_relabel d.current _ fun _ ↦ rfl
  unfold reserve
  dsimp only
  split
  · split
    · exact .inl fun L R E ↦ hwait _ _ L R E
    · exact .inr fun L R E ↦ hwait _ _ L R E
  · split
    · exact .inr fun _ _ _ ↦ rfl
    · exact .inl fun _ _ _ ↦ rfl

/-- A state with a label is the open one if that is empty, or the next one. -/
theorem site_openState :
    (∃ b, d.code[d.current]? = some b ∧ b.body = [] ∧
        ∀ L R E, (d.openState label).site L R E = d.site L R E) ∨
      ∀ L R E, (d.openState label).site L R E = (d.advance label).site L R E := by
  unfold openState
  split
  next h =>
    unfold isReusable isFresh at h
    cases hs : d.states[d.current]? with
    | none => simp [hs] at h
    | some s =>
      refine .inl ⟨s.block, by simp [code, hs], ?_, fun L R E ↦ ?_⟩
      · simp only [hs, Bool.and_eq_true, List.isEmpty_iff] at h
        exact h.1.1
      · unfold site
        congr 1
        exact d.code_relabel d.current _ fun _ ↦ rfl
  next => exact .inr fun _ _ _ ↦ rfl

@[simp]
theorem current_advance : (d.advance label).current = d.nextState := by
  unfold advance
  dsimp only
  split <;> rfl

@[simp]
theorem isClosed_advance : (d.advance label).isClosed = false := by
  unfold advance
  dsimp only
  split <;> rfl

variable {d} in
theorem code_advance (ho : d.isClosed = false) :
    (d.advance label).code =
      Code.redirect (d.code ++ [Block.fresh d.code.length]) d.current
        (.goto (.state d.code.length)) := by
  unfold advance
  simp [ho]

end Draft

section

variable {Γ : Interface} {d : Draft} {L R : Multiset Nat} {E : Set Nat}

/-- Leaves the open state, if there is one. -/
theorem Moves.suspend (d : Draft) :
    Moves Γ (d.site L R E) ⟨d.code, d.current, true, ↑d.exit?.toList + L, R, E⟩ := by
  unfold Draft.site Draft.exit?
  cases h : d.isClosed with
  | false => simpa using Relation.ReflTransGen.single (Move.suspend (Γ := Γ))
  | true => simp [Relation.ReflTransGen.refl]

theorem Moves.fork {code : Code} {i : Nat} : Moves Γ ⟨code, i, true, L, R, E⟩
    ⟨code ++ [Block.fresh code.length], code.length, false, L, R, insert code.length E⟩ :=
  .single .fork

theorem Moves.settle {code : Code} {i j : Nat} {closed : Bool} {t : Transition DraftTarget}
    (ht : t.Typed Γ) (hE : t.Into E) :
    Moves Γ ⟨code, i, closed, j ::ₘ L, R, E⟩ ⟨code.redirect j t, i, closed, L, R, E⟩ :=
  .single (.settle ht hE)

theorem Transition.into_goto {j : Nat} (h : j ∈ E) : (Transition.goto (.state j)).Into E :=
  ⟨rfl, fun _ hx ↦ ⟨j, h, List.mem_singleton.1 hx⟩⟩

theorem Transition.into_branch {c : HwExpr} {j k : Nat} (hj : j ∈ E) (hk : k ∈ E) :
    (Transition.branch c (.state j) (.state k)).Into E := by
  refine ⟨rfl, fun x hx ↦ ?_⟩
  simp only [Transition.targets, List.mem_cons, List.not_mem_nil, or_false] at hx
  rcases hx with rfl | rfl
  · exact ⟨j, hj, rfl⟩
  · exact ⟨k, hk, rfl⟩

theorem Moves.link {code : Code} {i j target : Nat} {closed : Bool} (hE : target ∈ E) :
    Moves Γ ⟨code, i, closed, j ::ₘ L, R, E⟩
      ⟨code.redirect j (.goto (.state target)), i, closed, L, R, E⟩ := by
  refine Moves.settle ?_ (Transition.into_goto hE)
  trivial

def Code.redirectAll (code : Code) (sources : List Nat) (target : Nat) : Code :=
  sources.foldl (fun code i ↦ code.redirect i (.goto (.state target))) code

theorem Moves.settleAll {i target : Nat} {closed : Bool} (hE : target ∈ E) (sources : List Nat)
    (code : Code) : Moves Γ ⟨code, i, closed, ↑sources + L, R, E⟩
      ⟨code.redirectAll sources target, i, closed, L, R, E⟩ := by
  induction sources generalizing code with
  | nil => simp [Code.redirectAll, Relation.ReflTransGen.refl]
  | cons j rest ih =>
    rw [← Multiset.cons_coe, Multiset.cons_add]
    exact (Moves.link hE).trans (ih _)

/-- The states in which an expanded call returns become loose. -/
theorem Moves.releaseAll {code : Code} {i : Nat} {closed : Bool} (returns : List Nat) :
    Moves Γ ⟨code, i, closed, L, ↑returns + R, E⟩ ⟨code, i, closed, ↑returns + L, R, E⟩ := by
  induction returns generalizing L with
  | nil => simp [Relation.ReflTransGen.refl]
  | cons j rest ih =>
    have hm : Moves Γ ⟨code, i, closed, L, j ::ₘ (↑rest + R), E⟩ _ := .single .release
    rw [← Multiset.cons_coe, Multiset.cons_add]
    refine hm.trans (ih.trans ?_)
    rw [Multiset.cons_add, Multiset.add_cons]

theorem Draft.code_linkAll (sources : List Nat) (target : Nat) (d : Draft) :
    (d.linkAll sources target).code = d.code.redirectAll sources target := by
  induction sources generalizing d with
  | nil => rfl
  | cons i rest ih =>
    have h := ih (d.link i target)
    rwa [d.code_link] at h

theorem Draft.moves_advance (ho : d.isClosed = false) (label : String) :
    ∃ E', Moves Γ (d.site L R E) ((d.advance label).site L R E') := by
  refine ⟨insert d.code.length E, ?_⟩
  have hs : Moves Γ (d.site L R E) ⟨d.code, d.current, true, d.current ::ₘ L, R, E⟩ := by
    unfold Draft.site
    rw [ho]
    exact .single .suspend
  have hf : Moves Γ ⟨d.code, d.current, true, d.current ::ₘ L, R, E⟩ _ := Moves.fork
  refine (hs.trans hf).trans ?_
  unfold Draft.site
  rw [code_advance label ho, current_advance, isClosed_advance, d.length_code]
  exact Moves.link (Set.mem_insert _ _)

theorem Draft.moves_reserve (ho : d.isClosed = false) (cost : Binary64) :
    ∃ E', Moves Γ (d.site L R E) ((d.reserve cost).site L R E') := by
  rcases d.site_reserve cost with h | h
  · exact ⟨E, h L R E ▸ .refl⟩
  · obtain ⟨E', hm⟩ := d.moves_advance (Γ := Γ) (L := L) (R := R) (E := E) ho "state"
    exact ⟨E', h L R E' ▸ hm⟩

theorem Draft.isClosed_reserve (ho : d.isClosed = false) (cost : Binary64) :
    (d.reserve cost).isClosed = false := by
  rcases d.site_reserve cost with h | h
  · exact (congrArg Site.isClosed (h 0 0 ∅)).trans ho
  · exact (congrArg Site.isClosed (h 0 0 ∅)).trans (d.isClosed_advance "state")

theorem Draft.moves_push (ho : d.isClosed = false) {s : HwStmt} (ht : s.Typed Γ) (hp : s.IsPlain) :
    Moves Γ (d.site L R E) ((d.push s).site L R E) := by
  have hm : Moves Γ ⟨d.code, d.current, false, L, R, E⟩
      ⟨d.code.extend d.current s, d.current, false, L, R, E⟩ := .single (.push ht hp)
  unfold Draft.site
  rw [d.code_push s, ho]
  exact ho ▸ hm

end

end Fabric
