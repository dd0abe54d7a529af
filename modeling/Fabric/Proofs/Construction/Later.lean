import Fabric.Proofs.Construction.Branch
import Fabric.Proofs.Machine.Flow

namespace Fabric

theorem Code.getElem?_redirectAll (sources : List Nat) (target i : Nat) (code : Code) :
    (code.redirectAll sources target)[i]? = code[i]?.map fun b ↦
      if i ∈ sources then { b with transition := .goto (.state target) } else b := by
  induction sources generalizing code with
  | nil => simp [redirectAll]
  | cons j rest ih =>
    refine (ih (code.redirect j (.goto (.state target)))).trans ?_
    rw [redirect, List.getElem?_modify, Option.map_eq_map, Option.map_map]
    congr 1
    funext b
    by_cases hj : j = i
    · simp [hj]
    · simp [hj, Ne.symm hj]

namespace Draft

def Settled (d : Draft) (X : Multiset Nat) (i : Nat) : Prop :=
  i ∉ X ∧ (d.isClosed = false → i ≠ d.current)

structure Later (d : Draft) (X : Multiset Nat) (d' : Draft) (X' : Multiset Nat) : Prop where
  settled : ∀ i < d.nextState, d.Settled X i → d'.Settled X' i ∧ d'.code[i]? = d.code[i]?
  loose : ∀ i ∈ X, ∀ b, d.code[i]? = some b →
    (i ∈ X' ∨ d'.Settled X' i) ∧ ∃ b', d'.code[i]? = some b' ∧ b'.body = b.body
  le : d.nextState ≤ d'.nextState

def Valid (d : Draft) (X : Multiset Nat) : Prop := ∃ E, (d.site X 0 E).Good

variable {Γ : Interface} {d d' d'' : Draft} {X X' X'' : Multiset Nat}

theorem parts_of_site (hsite : ∀ L R E, d.site L R E = d'.site L R E) :
    d.code = d'.code ∧ d.current = d'.current ∧ d.isClosed = d'.isClosed ∧
      d.nextState = d'.nextState := by
  have hs := hsite 0 0 ∅
  have hcode : d.code = d'.code := congrArg Site.code hs
  refine ⟨hcode, congrArg Site.current hs, congrArg Site.isClosed hs, ?_⟩
  rw [← d.length_code, hcode, d'.length_code]

namespace Later

theorem refl (d : Draft) (X : Multiset Nat) : Later d X d X :=
  ⟨fun _ _ h ↦ ⟨h, rfl⟩, fun _ hi b hb ↦ ⟨.inl hi, b, hb, rfl⟩, Nat.le_refl _⟩

theorem trans (h : Later d X d' X') (h' : Later d' X' d'' X'') : Later d X d'' X'' where
  settled i hi hs := by
    obtain ⟨hs', heq⟩ := h.settled i hi hs
    obtain ⟨hs'', heq'⟩ := h'.settled i (hi.trans_le h.le) hs'
    exact ⟨hs'', heq'.trans heq⟩
  loose i hi b hb := by
    obtain ⟨hi' | hs', b', hb', hbody⟩ := h.loose i hi b hb
    · obtain ⟨hi'', b'', hb'', hbody'⟩ := h'.loose i hi' b' hb'
      exact ⟨hi'', b'', hb'', hbody'.trans hbody⟩
    · have hlt := (List.getElem?_eq_some_iff.1 hb').1
      rw [d'.length_code] at hlt
      obtain ⟨hs'', heq⟩ := h'.settled i hlt hs'
      exact ⟨.inr hs'', b', heq.trans hb', hbody⟩
  le := h.le.trans h'.le

theorem to_site {d₁ : Draft} (h : Later d X d' X')
    (hsite : ∀ L R E, d'.site L R E = d₁.site L R E) : Later d X d₁ X' := by
  obtain ⟨hcode, hcurrent, hclosed, hnext⟩ := parts_of_site hsite
  obtain ⟨hsettled, hloose, hle⟩ := h
  unfold Settled at hsettled hloose
  rw [hcode, hcurrent, hclosed] at hsettled hloose
  exact ⟨hsettled, hloose, hnext ▸ hle⟩

theorem close (ho : d.isClosed = false) (X : Multiset Nat) (closed : Bool) :
    Later d X { d with isClosed := closed } X :=
  ⟨fun _ _ hs ↦ ⟨⟨hs.1, fun _ ↦ hs.2 ho⟩, rfl⟩, fun _ hi b hb ↦ ⟨.inl hi, b, hb, rfl⟩,
    Nat.le_refl _⟩

theorem ofMoves {E E' : Set Nat} (h : Moves Γ (d.site X 0 E) (d'.site X' 0 E'))
    (hg : (d.site X 0 E).Good) : Later d X d' X' := by
  have hfixed (d : Draft) (X : Multiset Nat) (E : Set Nat) (i : Nat) :
      (d.site X 0 E).Fixed i ↔ d.Settled X i := by
    simp [Site.Fixed, Settled, site]
  refine ⟨fun i hi hs ↦ ?_, fun i hi b hb ↦ ?_, ?_⟩
  · have hf := h.fixed hg (by rwa [site, d.length_code]) ((hfixed d X E i).2 hs)
    exact ⟨(hfixed d' X' E' i).1 hf.1, hf.2⟩
  · obtain ⟨hi' | hf, hbody⟩ := h.looseOrFixed hg hi hb
    · exact ⟨.inl hi', hbody⟩
    · exact ⟨.inr ((hfixed d' X' E' i).1 hf), hbody⟩
  · have hle := h.length_le
    rwa [site, site, d.length_code, d'.length_code] at hle

/-- A change of transitions of states that are open or loose, perhaps with new states. -/
theorem ofRelink (hle : d.nextState ≤ d'.nextState)
    (hbody : ∀ (i : Nat) (b : Block), d.code[i]? = some b →
      ∃ b', d'.code[i]? = some b' ∧ b'.body = b.body)
    (hsame : ∀ i < d.nextState, d.Settled X i → d'.code[i]? = d.code[i]?)
    (hX : ∀ i ∈ X', i ∈ X ∨ d.isClosed = false ∧ i = d.current)
    (hnew : d'.isClosed = false → d.nextState ≤ d'.current) : Later d X d' X' := by
  have hne {i : Nat} (hi : i < d.nextState) (ho : d'.isClosed = false) : i ≠ d'.current := by
    have hge := hnew ho
    omega
  refine ⟨fun i hi hs ↦ ⟨⟨fun hmem ↦ ?_, hne hi⟩, hsame i hi hs⟩, fun i hi b hb ↦ ⟨?_, hbody i b hb⟩,
    hle⟩
  · rcases hX i hmem with hx | ⟨ho, heq⟩
    · exact hs.1 hx
    · exact hs.2 ho heq
  · have hlt := (List.getElem?_eq_some_iff.1 hb).1
    rw [d.length_code] at hlt
    by_cases hmem : i ∈ X'
    · exact .inl hmem
    · exact .inr ⟨hmem, hne hlt⟩

end Later

namespace Valid

theorem nodup (h : d.Valid X) : X.Nodup := by
  obtain ⟨E, hg⟩ := h
  have hn := hg.nodup
  rwa [site, add_zero] at hn

theorem lt (h : d.Valid X) {i : Nat} (hi : i ∈ X) : i < d.nextState := by
  obtain ⟨E, hg⟩ := h
  have hlt := (hg.pending i (by simpa [site] using hi)).2.lt
  rwa [site, d.length_code] at hlt

theorem current_lt (h : d.Valid X) : d.current < d.nextState := by
  obtain ⟨E, hg⟩ := h
  have hlt := hg.current_lt
  rwa [site, d.length_code] at hlt

theorem not_mem (h : d.Valid X) (ho : d.isClosed = false) : d.current ∉ X := by
  obtain ⟨E, hg⟩ := h
  have hmem := (hg.opened ho).1
  rwa [site, add_zero] at hmem

/-- A new state is opened, and the one that was open before is left loose. -/
theorem fork (Γ : Interface) (h : d.Valid X) (label : String) :
    Valid ((d.addState label).enter d.nextState) (↑d.exit?.toList + X) := by
  obtain ⟨E, hg⟩ := h
  have hm := (Moves.suspend (Γ := Γ) (L := X) (R := 0) (E := E) d).trans Moves.fork
  refine ⟨insert d.nextState E, ?_⟩
  unfold site at hm ⊢
  rw [code_enter, code_addState]
  rw [d.length_code] at hm ⊢
  exact Moves.good hm hg

end Valid

def looseExits (d : Draft) : Multiset Nat :=
  (d.loops.map fun x ↦ (↑x.breaks + ↑x.continues : Multiset Nat)).sum + ↑d.frame.returns

theorem SameScope.looseExits (h : d.SameScope d') : d'.looseExits = d.looseExits := by
  unfold Draft.looseExits
  rw [h.loops, h.frame]

theorem Grows.looseExits {B C R : List Nat} (h : Grows B C R d d') :
    d'.looseExits = ↑R + (↑B + ↑C + d.looseExits) := by
  have hreturns : d'.frame.returns = d.frame.returns ++ R := by rw [h.frame]
  unfold Draft.looseExits
  rw [h.loops, hreturns, ← Multiset.coe_add]
  cases hl : d.loops with
  | nil =>
    obtain ⟨rfl, rfl⟩ := h.exits hl
    simp only [List.modifyHead_nil, Multiset.coe_nil]
    abel
  | cons y rest =>
    simp only [List.modifyHead_cons, List.map_cons, List.sum_cons, LoopExits.add,
      ← Multiset.coe_add]
    abel

theorem Valid.not_mem_reserve {L : Multiset Nat} (h : d.Valid (d.looseExits + L))
    (ho : d.isClosed = false) (cost : Binary64) :
    (d.reserve cost).current ∉ (d.reserve cost).looseExits + L := by
  rw [(d.sameScope_reserve cost).looseExits]
  rcases d.site_reserve cost with hsite | hsite
  · have hcurrent : (d.reserve cost).current = d.current := congrArg Site.current (hsite 0 0 ∅)
    rw [hcurrent]
    exact h.not_mem ho
  · have hcurrent : (d.reserve cost).current = (d.advance "state").current :=
      congrArg Site.current (hsite 0 0 ∅)
    rw [hcurrent, current_advance]
    exact fun hmem ↦ absurd (h.lt hmem) (Nat.lt_irrefl _)

/-- A draft that can be followed. `L` are the states that are loose besides the recorded exits. -/
structure Proper (Γ : Interface) (L : Multiset Nat) (d : Draft) : Prop where
  typed : d.Scoped Γ
  valid : d.Valid (d.looseExits + L)

/-- A draft that follows on another one. `L` and `L'` are the states that are loose besides the
recorded exits. -/
abbrev Before (d : Draft) (L : Multiset Nat) (d' : Draft) (L' : Multiset Nat) : Prop :=
  d.Later (d.looseExits + L) d' (d'.looseExits + L')

def KeptIn (d : Draft) (L : Multiset Nat) (z : Draft) : Prop :=
  ∀ i < d.nextState, d.Settled (d.looseExits + L) i → z.code[i]? = d.code[i]?

variable {L L' : Multiset Nat} {z : Draft}

theorem Later.keptIn (h : d.Before L d' L') (hz : d'.KeptIn L' z) : d.KeptIn L z := by
  intro i hi hs
  obtain ⟨hs', heq⟩ := h.settled i hi hs
  exact (hz i (hi.trans_le h.le) hs').trans heq

namespace KeptIn

theorem refl (d : Draft) (L : Multiset Nat) : d.KeptIn L d := fun _ _ _ ↦ rfl

/-- What is settled in a draft that may be closed is so in the open one. -/
theorem of_close (ho : d.isClosed = false) {closed : Bool}
    (h : KeptIn { d with isClosed := closed } L z) : d.KeptIn L z :=
  fun i hi hs ↦ h i hi ⟨hs.1, fun _ ↦ hs.2 ho⟩

theorem of_site (h : d.KeptIn L z) (hexits : d.looseExits = d'.looseExits)
    (hsite : ∀ L R E, d.site L R E = d'.site L R E) : d'.KeptIn L z := by
  obtain ⟨hcode, hcurrent, hclosed, hnext⟩ := parts_of_site hsite
  unfold KeptIn Settled at h ⊢
  rwa [hcode, hcurrent, hclosed, hnext, hexits] at h

end KeptIn

namespace Proper

theorem nodup (h : d.Proper Γ L) : (↑d.exit?.toList + (d.looseExits + L)).Nodup := by
  have hn := h.valid.nodup
  unfold exit?
  cases ho : d.isClosed with
  | true => simpa using hn
  | false => simpa using ⟨by simpa using h.valid.not_mem ho, hn⟩

theorem evolve {B C R : List Nat} (h : Evolves Γ (d.Scoped Γ) B C R d d' (d'.Scoped Γ))
    (hc : Γ.Covers d') (hd : d.Proper Γ L) : d'.Proper Γ L ∧ d.Before L d' L := by
  obtain ⟨hscoped, hmoves⟩ := h.run hc hd.typed
  obtain ⟨E, hg⟩ := hd.valid
  obtain ⟨E', hm⟩ := hmoves _ 0 E hg
  have hreleased := hm.trans (Moves.releaseAll (R := 0) R)
  have hexits : (↑R + (↑B + ↑C + (d.looseExits + L)) : Multiset Nat) = d'.looseExits + L := by
    rw [h.toGrows.looseExits]
    abel
  rw [hexits] at hreleased
  exact ⟨⟨hscoped, E', Moves.good hreleased hg⟩, .ofMoves hreleased hg⟩

/-- A new state is opened, and the one that was open before is left loose. -/
theorem fork (h : d.Proper Γ L) (label : String) :
    ((d.addState label).enter d.nextState).Proper Γ (↑d.exit?.toList + L) := by
  refine ⟨(d.sameScope_fork label).scoped h.typed, ?_⟩
  have hv := h.valid.fork Γ label
  rwa [add_left_comm] at hv

theorem ofMoves (h : d.Proper Γ L) (hs : d.SameScope d')
    (hm : ∀ L R E, ∃ E', Moves Γ (d.site L R E) (d'.site L R E')) :
    d'.Proper Γ L ∧ d.Before L d' L := by
  obtain ⟨E, hg⟩ := h.valid
  obtain ⟨E', hm⟩ := hm (d.looseExits + L) 0 E
  refine ⟨⟨hs.scoped h.typed, E', ?_⟩, ?_⟩
  · rw [hs.looseExits]
    exact hm.good hg
  · rw [Before, hs.looseExits]
    exact .ofMoves hm hg

theorem reserve (h : d.Proper Γ L) (ho : d.isClosed = false) (cost : Binary64) :
    (d.reserve cost).Proper Γ L ∧ d.Before L (d.reserve cost) L :=
  h.ofMoves (d.sameScope_reserve cost) fun _ _ _ ↦ moves_reserve ho cost

theorem openState (h : d.Proper Γ L) (ho : d.isClosed = false) (label : String) :
    (d.openState label).Proper Γ L ∧ d.Before L (d.openState label) L :=
  h.ofMoves (d.sameScope_openState label) fun _ _ _ ↦ moves_openState ho label

end Proper

theorem exit?_eq_some {i : Nat} : d.exit? = some i ↔ d.isClosed = false ∧ i = d.current := by
  unfold exit?
  cases d.isClosed with
  | true => simp
  | false => simp [eq_comm]

def suspended (d : Draft) : Draft := { d with isClosed := true }

theorem suspended_linkAll (sources : List Nat) (target : Nat) (d : Draft) :
    d.suspended.linkAll sources target = (d.linkAll sources target).suspended := by
  induction sources generalizing d with
  | nil => rfl
  | cons i rest ih => exact ih (d.link i target)

/-- It does not matter whether a state is open when control comes together in a new one. -/
theorem join_suspended (d : Draft) (label : String) (source : Nat) (t : Transition DraftTarget)
    (exits : List Nat) : d.suspended.join label source t exits = d.join label source t exits :=
  congrArg (·.enter d.nextState)
    (suspended_linkAll exits d.nextState ((d.addState label).setTransition source t))

theorem before_suspended (d : Draft) (L : Multiset Nat) :
    d.Before L d.suspended (↑d.exit?.toList + L) := by
  refine .ofRelink (Nat.le_refl _) (fun i b hb ↦ ⟨b, hb, rfl⟩) (fun _ _ _ ↦ rfl) (fun i hi ↦ ?_)
    nofun
  have hexits : d.suspended.looseExits = d.looseExits := rfl
  rw [hexits, Multiset.mem_add, Multiset.mem_add, Multiset.mem_coe, Option.mem_toList,
    exit?_eq_some] at hi
  rw [Multiset.mem_add]
  tauto

/-- Loose states of a draft in which no state is open are linked. -/
theorem before_linkAll (hc : d.isClosed = true) (sources : List Nat) (target : Nat) :
    d.Before (↑sources + L) (d.linkAll sources target) L := by
  have hscope := sameScope_linkAll sources target d
  have hexits := hscope.looseExits
  refine .ofRelink (nextState_linkAll _ _ _).ge (fun i b hb ↦ ?_) (fun i hi hs ↦ ?_) (fun i hi ↦ ?_)
    fun ho ↦ ?_
  · refine ⟨_, by rw [code_linkAll, Code.getElem?_redirectAll, hb, Option.map_some], ?_⟩
    split <;> rfl
  · have hmem : i ∉ sources := fun hmem ↦ hs.1 (by simp [hmem])
    rw [code_linkAll, Code.getElem?_redirectAll]
    simp [hmem]
  · rw [hexits] at hi
    refine .inl ?_
    simp only [Multiset.mem_add] at hi ⊢
    tauto
  · rw [isClosed_linkAll, hc] at ho
    exact nomatch ho

theorem before_push (ho : d.isClosed = false) (hmem : d.current ∉ d.looseExits + L) (s : HwStmt) :
    d.Before L (d.push s) L where
  settled i hi hs := by
    refine ⟨hs, ?_⟩
    rw [code_push, Code.getElem?_extend_ne _ _ (Ne.symm (hs.2 ho))]
  loose i hi b hb := by
    have hne : d.current ≠ i := fun he ↦ hmem (he ▸ hi)
    exact ⟨.inl hi, b, by rw [code_push, Code.getElem?_extend_ne _ _ hne, hb], rfl⟩
  le := (d.nextState_modifyState _ _).ge

theorem before_emit (Γ : Interface) (h : d.Valid (d.looseExits + L)) (ho : d.isClosed = false)
    (s : HwStmt) (cost : Binary64) : d.Before L (d.emit s cost) L := by
  obtain ⟨E, hg⟩ := h
  obtain ⟨E', hm⟩ := d.moves_reserve (Γ := Γ) (L := d.looseExits + L) (R := 0) (E := E) ho cost
  have hreserve : d.Before L (d.reserve cost) L := by
    rw [Before, (d.sameScope_reserve cost).looseExits]
    exact .ofMoves hm hg
  exact hreserve.trans (before_push (d.isClosed_reserve ho cost)
    (Valid.not_mem_reserve ⟨E, hg⟩ ho cost) s)

theorem looseExits_leave (d : Draft) :
    d.leave.looseExits = d.looseExits + if d.frame.isExpanded then {d.current} else 0 := by
  have hloops : d.leave.loops = d.loops := rfl
  have hreturns : d.leave.frame.returns =
      if d.frame.isExpanded then d.frame.returns ++ [d.current] else d.frame.returns := rfl
  unfold looseExits
  rw [hloops, hreturns]
  split
  · rw [← Multiset.coe_add, Multiset.coe_singleton, add_assoc]
  · rw [add_zero]

theorem before_leave (ho : d.isClosed = false) : d.Before L d.leave L := by
  have hcode : d.leave.code = d.code.redirect d.current (.goto .finished) :=
    d.code_setTransition d.current _
  refine .ofRelink ?_ (fun i b hb ↦ ?_) (fun i _ hs ↦ ?_) (fun i hi ↦ ?_) nofun
  · rw [← d.length_code, ← d.leave.length_code, hcode, Code.length_redirect]
  · rw [hcode]
    rcases eq_or_ne d.current i with rfl | hne
    · refine ⟨{ b with transition := .goto .finished }, ?_, rfl⟩
      rw [Code.getElem?_redirect_eq, hb, Option.map_some]
    · exact ⟨b, by rw [Code.getElem?_redirect_ne _ _ hne, hb], rfl⟩
  · rw [hcode, Code.getElem?_redirect_ne _ _ (hs.2 ho).symm]
  · rw [looseExits_leave] at hi
    split at hi
    · simp only [Multiset.mem_add, Multiset.mem_singleton] at hi ⊢
      tauto
    · exact .inl (by simpa using hi)

theorem before_fork (d : Draft) (L : Multiset Nat) (label : String) :
    d.Before L ((d.addState label).enter d.nextState) (↑d.exit?.toList + L) := by
  have hold {i : Nat} (hi : i < d.nextState) :
      ((d.addState label).enter d.nextState).code[i]? = d.code[i]? := by
    rw [code_enter, code_addState, List.getElem?_append_left (by rwa [d.length_code])]
  refine .ofRelink ?_ (fun i b hb ↦ ⟨b, ?_, rfl⟩) (fun i hi _ ↦ hold hi) (fun i hi ↦ ?_)
    fun _ ↦ Nat.le_refl _
  · exact (Nat.le_succ _).trans_eq (d.nextState_addState label).symm
  · rw [hold (by simpa using (List.getElem?_eq_some_iff.1 hb).1), hb]
  · have hexits : ((d.addState label).enter d.nextState).looseExits = d.looseExits := rfl
    rw [hexits, Multiset.mem_add, Multiset.mem_add, Multiset.mem_coe, Option.mem_toList,
      exit?_eq_some] at hi
    rw [Multiset.mem_add]
    tauto

def beginBody (d : Draft) (label : String) : Draft :=
  { (d.addState label).enter d.nextState with loops := ⟨[], []⟩ :: d.loops }

@[simp]
theorem looseExits_beginBody (d : Draft) (label : String) :
    (d.beginBody label).looseExits = d.looseExits := by
  unfold looseExits beginBody
  rw [List.map_cons, List.sum_cons]
  simp only [Multiset.coe_nil, zero_add]
  rfl

theorem Proper.beginBody (h : d.Proper Γ L) (label : String) :
    (d.beginBody label).Proper Γ (↑d.exit?.toList + L) := by
  have hfork := h.fork label
  refine ⟨⟨hfork.typed.frame, hfork.typed.results⟩, ?_⟩
  rw [looseExits_beginBody]
  exact hfork.valid

theorem before_beginBody (d : Draft) (L : Multiset Nat) (label : String) :
    d.Before L (d.beginBody label) (↑d.exit?.toList + L) := by
  rw [Before, looseExits_beginBody]
  have h : d.Later (d.looseExits + L) ((d.addState label).enter d.nextState)
    (d.looseExits + (↑d.exit?.toList + L)) := d.before_fork L label
  exact h.to_site fun _ _ _ ↦ rfl

def endBody (d : Draft) (loops : List LoopExits) : Draft := { d with loops := loops }

theorem looseExits_endBody {B C : List Nat} {loops : List LoopExits} (hl : d.loops = ⟨B, C⟩ :: loops)
    (L : Multiset Nat) :
    (d.endBody loops).looseExits + (↑B + ↑C + L) = d.looseExits + L := by
  simp only [endBody, looseExits, hl, List.map_cons, List.sum_cons]
  abel

theorem Proper.endBody (h : d.Proper Γ L) {B C : List Nat} {loops : List LoopExits}
    (hl : d.loops = ⟨B, C⟩ :: loops) : (d.endBody loops).Proper Γ (↑B + ↑C + L) := by
  refine ⟨⟨h.typed.frame, h.typed.results⟩, ?_⟩
  rw [looseExits_endBody hl]
  exact h.valid

theorem before_endBody {B C : List Nat} {loops : List LoopExits} (hl : d.loops = ⟨B, C⟩ :: loops)
    (L : Multiset Nat) : d.Before L (d.endBody loops) (↑B + ↑C + L) := by
  rw [Before, looseExits_endBody hl]
  have h := Later.refl d (d.looseExits + L)
  exact h.to_site fun _ _ _ ↦ rfl

/-- The change that a join makes to the states that are there. -/
theorem getElem?_join (label : String) (source : Nat) (t : Transition DraftTarget)
    (exits : List Nat) {i : Nat} {b : Block} (hb : d.code[i]? = some b) :
    (d.join label source t exits).code[i]? = some (if i ∈ exits
      then { b with transition := .goto (.state d.nextState) }
      else if i = source then { b with transition := t } else b) := by
  have hlt := (List.getElem?_eq_some_iff.1 hb).1
  rw [join, code_enter, code_linkAll, Code.getElem?_redirectAll, code_setTransition, code_addState,
    Code.redirect, List.getElem?_modify, List.getElem?_append_left hlt, hb]
  rcases eq_or_ne source i with rfl | hne
  · simp
  · simp [hne, hne.symm]

theorem nextState_join (label : String) (source : Nat) (t : Transition DraftTarget)
    (exits : List Nat) : (d.join label source t exits).nextState = d.nextState + 1 := by
  have h : ((d.addState label).setTransition source t).nextState = d.nextState + 1 := by simp
  exact (nextState_linkAll _ _ _).trans h

theorem before_join {source : Nat} {exits : List Nat} (label : String)
    (t : Transition DraftTarget) (hsource : source ∈ L) (hexits : ∀ i ∈ exits, i ∈ d.exit? ∨ i ∈ L)
    (hL : L' ⊆ L) : d.Before L (d.join label source t exits) L' := by
  refine .ofRelink (by rw [nextState_join]; omega) (fun i b hb ↦ ⟨_, getElem?_join _ _ _ _ hb, ?_⟩)
    (fun i hi hs ↦ ?_) (fun i hi ↦ ?_) fun _ ↦ Nat.le_refl _
  · split
    · rfl
    · split <;> rfl
  · have hi' : i < d.code.length := by rwa [d.length_code]
    have hmem : i ∉ exits := fun hmem ↦ by
      rcases hexits i hmem with he | hl
      · exact hs.2 (exit?_eq_some.1 he).1 (exit?_eq_some.1 he).2
      · exact hs.1 (Multiset.mem_add.2 (.inr hl))
    have hne : i ≠ source := fun he ↦ hs.1 (Multiset.mem_add.2 (.inr (he ▸ hsource)))
    rw [getElem?_join _ _ _ _ (List.getElem?_eq_getElem hi'), if_neg hmem, if_neg hne,
      List.getElem?_eq_getElem hi']
  · rw [(d.sameScope_join label source t exits).looseExits, Multiset.mem_add] at hi
    exact .inl (Multiset.mem_add.2 (hi.imp_right fun h ↦ hL h))

end Draft

end Fabric
