import Fabric.Proofs.Construction.Later

namespace Fabric

variable {V ι : Type} {I : Interpretation V} {M : Machine ι}

namespace Execution

variable (x : Execution I M) (name : DraftTarget → ι)

def Ran (t : Nat) (code : Code) (i : Nat) (m : Memory V) : Prop :=
  ∃ b, code[i]? = some b ∧ x.At name t i b.body m

structure Stands (t : Nat) (d : Draft) (m : Memory V) : Prop where
  opened : d.isClosed = false
  ran : x.Ran name t d.code d.current m

variable {x name} {t i : Nat} {m : Memory V} {d d' e : Draft} {X X' L : Multiset Nat}
  {Γ : Interface}

/-- A loose state has the same body in every draft that follows. -/
theorem Ran.later (h : x.Ran name t d.code i m) (hi : i ∈ X) (hl : d.Later X d' X') :
    x.Ran name t d'.code i m := by
  obtain ⟨b, hb, hat⟩ := h
  obtain ⟨-, b', hb', hbody⟩ := hl.loose i hi b hb
  exact ⟨b', hb', hbody ▸ hat⟩

theorem Ran.fork (h : x.Ran name t d.code i m) (label : String) :
    x.Ran name t ((d.addState label).enter d.nextState).code i m := by
  obtain ⟨b, hb, hat⟩ := h
  refine ⟨b, ?_, hat⟩
  rw [Draft.code_enter, Draft.code_addState,
    List.getElem?_append_left (List.getElem?_eq_some_iff.1 hb).1, hb]

theorem Enters.stands {b : Block} (h : x.Enters name t (.state d.current) m)
    (ho : d.isClosed = false) (hb : d.code[d.current]? = some b) (hbody : b.body = []) :
    x.Stands name t d m :=
  ⟨ho, b, hb, hbody ▸ h.at⟩

theorem Enters.stands_fork (h : x.Enters name t (.state d.nextState) m) (label : String) :
    x.Stands name t ((d.addState label).enter d.nextState) m := by
  refine Enters.stands (b := .fresh d.code.length) h rfl ?_ rfl
  rw [Draft.code_enter, Draft.code_addState]
  show (d.code ++ [Block.fresh d.code.length])[d.nextState]? = _
  rw [← d.length_code]
  simp

theorem Enters.stands_join (h : x.Enters name t (.state d.nextState) m) (label : String)
    (source : Nat) (T : Transition DraftTarget) (exits : List Nat) :
    x.Stands name t (d.join label source T exits) m := by
  have hnew : ((d.addState label).setTransition source T).code[d.nextState]? =
      some { Block.fresh d.code.length with
        transition := if source = d.nextState then T else .goto .finished } := by
    rw [Draft.code_setTransition, Draft.code_addState, Code.redirect, List.getElem?_modify,
      ← d.length_code]
    by_cases hs : source = d.nextState
    · simp [hs, Block.fresh]
    · simp [hs, Block.fresh]
  have hb := Code.getElem?_redirectAll exits d.nextState d.nextState
    ((d.addState label).setTransition source T).code
  rw [hnew, Option.map_some, ← Draft.code_linkAll] at hb
  refine Enters.stands h rfl hb ?_
  split <;> rfl

theorem Stands.push (h : x.Stands name t d m) (s : HwStmt) :
    x.Stands name t (d.push s) (HwStmt.exec I (x.inputs t) s m) := by
  obtain ⟨b, hb, hat⟩ := h.ran
  refine ⟨h.opened, { b with body := b.body ++ [s] }, ?_, hat.append [s]⟩
  have he := d.code.getElem?_extend_eq d.current s
  rw [hb, Option.map_some] at he
  rw [Draft.code_push]
  exact he

/-- A state that stays as it is is left for the state that its transition names. -/
theorem Ran.leaves_settled (hM : M.Realizes name e.code) (h : x.Ran name t d.code i m)
    (hs : d.Settled (d.looseExits + L) i) (he : d.KeptIn L e) {b : Block}
    (hb : d.code[i]? = some b) :
    ∃ t' > t, x.Works name t t' ∧ x.Enters name t'
      (b.transition.next (fun c ↦ I.truth (c.eval I (x.inputs (t' - 1)) m.values)) (.state i))
      m := by
  obtain ⟨b', hb', hat⟩ := h
  obtain rfl := Option.some.inj (hb.symm.trans hb')
  have hlt := (List.getElem?_eq_some_iff.1 hb).1
  rw [d.length_code] at hlt
  exact hat.leaves hM ((he i hlt hs).trans hb)

theorem Stands.advance (hM : M.Realizes name e.code) (h : x.Stands name t d m)
    (hd : d.Valid (d.looseExits + L)) {label : String} (he : (d.advance label).KeptIn L e) :
    ∃ t' > t, x.Works name t t' ∧ x.Stands name t' (d.advance label) m := by
  obtain ⟨b, hb, hat⟩ := h.ran
  have hlt := hd.current_lt
  have hcode := Draft.code_advance label h.opened
  have hb' : (d.advance label).code[d.current]? =
      some { b with transition := .goto (.state d.code.length) } := by
    rw [hcode, Code.getElem?_redirect_eq, List.getElem?_append_left (by rwa [d.length_code]), hb]
    rfl
  have hsettled : (d.advance label).Settled ((d.advance label).looseExits + L) d.current := by
    refine ⟨?_, fun _ ↦ by rw [d.current_advance]; exact Nat.ne_of_lt hlt⟩
    rw [(d.sameScope_advance label).looseExits]
    exact hd.not_mem h.opened
  obtain ⟨t', ht, hworks, henters⟩ := Ran.leaves_settled hM ⟨_, hb', hat⟩ hsettled he hb'
  refine ⟨t', ht, hworks, Enters.stands (b := .fresh d.code.length) ?_ (d.isClosed_advance label)
    ?_ rfl⟩
  · rw [d.current_advance, ← d.length_code]
    exact henters
  · rw [hcode, d.current_advance, Code.getElem?_redirect_ne _ _ (Nat.ne_of_lt hlt), ← d.length_code]
    simp

theorem Stands.of_site (h : x.Stands name t d m)
    (hsite : ∀ L R E, d'.site L R E = d.site L R E) : x.Stands name t d' m := by
  have hs := hsite 0 0 ∅
  have hcode : d'.code = d.code := congrArg Site.code hs
  have hcurrent : d'.current = d.current := congrArg Site.current hs
  refine ⟨(congrArg Site.isClosed hs).trans h.opened, ?_⟩
  rw [hcode, hcurrent]
  exact h.ran

theorem Stands.reserve (hM : M.Realizes name e.code) (h : x.Stands name t d m)
    (hd : d.Valid (d.looseExits + L)) {cost : Binary64} (he : (d.reserve cost).KeptIn L e) :
    ∃ t', x.Works name t t' ∧ x.Stands name t' (d.reserve cost) m := by
  rcases d.site_reserve cost with hsite | hsite
  · exact ⟨t, .refl t, h.of_site hsite⟩
  · have hexits := (d.sameScope_reserve cost).looseExits.trans
      (d.sameScope_advance "state").looseExits.symm
    obtain ⟨t', -, hworks, hs⟩ := h.advance hM hd (he.of_site hexits hsite)
    exact ⟨t', hworks, hs.of_site hsite⟩

theorem Stands.emit (hM : M.Realizes name e.code) (h : x.Stands name t d m)
    (hd : d.Valid (d.looseExits + L)) {s : HwStmt} {cost : Binary64}
    (he : (d.emit s cost).KeptIn L e) : ∃ t', x.Works name t t' ∧
      x.Stands name t' (d.emit s cost) (HwStmt.exec I (x.inputs t') s m) := by
  have hpush := Draft.before_push (d.isClosed_reserve h.opened cost)
    (hd.not_mem_reserve h.opened cost) s
  obtain ⟨t', hworks, hs⟩ := h.reserve hM hd (hpush.keptIn he)
  exact ⟨t', hworks, hs.push s⟩

theorem Stands.openState (hM : M.Realizes name e.code) (h : x.Stands name t d m)
    (hd : d.Valid (d.looseExits + L)) {label : String} (he : (d.openState label).KeptIn L e) :
    ∃ t', x.Works name t t' ∧ x.Enters name t' (.state (d.openState label).current) m := by
  obtain ⟨E, hg⟩ := hd
  obtain ⟨b, hb, hbody⟩ := Draft.body_openState hg h.opened label
  have hstands : ∃ t', x.Works name t t' ∧ x.Stands name t' (d.openState label) m := by
    rcases d.site_openState label with ⟨_, _, _, hsite⟩ | hsite
    · exact ⟨t, .refl t, h.of_site hsite⟩
    · have hexits := (d.sameScope_openState label).looseExits.trans
        (d.sameScope_advance label).looseExits.symm
      obtain ⟨t', -, hworks, hs⟩ := h.advance hM ⟨E, hg⟩ (he.of_site hexits hsite)
      exact ⟨t', hworks, hs.of_site hsite⟩
  obtain ⟨t', hworks, -, b', hb', hat⟩ := hstands
  obtain rfl := Option.some.inj (hb.symm.trans hb')
  rw [hbody] at hat
  exact ⟨t', hworks, hat.enters⟩

theorem Enters.stands_openState {label : String}
    (h : x.Enters name t (.state (d.openState label).current) m)
    (hd : d.Valid (d.looseExits + L)) (ho : d.isClosed = false) :
    x.Stands name t (d.openState label) m := by
  obtain ⟨E, hg⟩ := hd
  obtain ⟨b, hb, hbody⟩ := Draft.body_openState hg ho label
  exact Enters.stands h (Draft.isClosed_openState ho label) hb hbody

/-- A state in which the member is left leads to the last state. -/
theorem Stands.leave (hM : M.Realizes name e.code) (h : x.Stands name t d m)
    (hd : d.current ∉ d.looseExits + L) (hframe : d.frame.isExpanded = false)
    (he : d.leave.KeptIn L e) :
    ∃ t' > t, x.Works name t t' ∧ x.Enters name t' .finished m := by
  obtain ⟨b, hb, hat⟩ := h.ran
  have hb' : d.leave.code[d.current]? = some { b with transition := .goto .finished } := by
    have hcode : d.leave.code = d.code.redirect d.current (.goto .finished) :=
      d.code_setTransition d.current _
    rw [hcode, Code.getElem?_redirect_eq, hb]
    rfl
  have hsettled : d.leave.Settled (d.leave.looseExits + L) d.current := by
    refine ⟨?_, nofun⟩
    rw [d.looseExits_leave, hframe]
    simpa using hd
  exact Ran.leaves_settled hM ⟨_, hb', hat⟩ hsettled he hb'

theorem Ran.linked (hM : M.Realizes name e.code) (h : x.Ran name t d.code i m)
    (hc : d.isClosed = true) {sources : List Nat} {target : Nat} (hi : i ∈ sources)
    (hmem : i ∉ d.looseExits + L) (he : (d.linkAll sources target).KeptIn L e) :
    ∃ t' > t, x.Works name t t' ∧ x.Enters name t' (.state target) m := by
  obtain ⟨b, hb, hat⟩ := h
  have hb' : (d.linkAll sources target).code[i]? =
      some { b with transition := .goto (.state target) } := by
    rw [Draft.code_linkAll, Code.getElem?_redirectAll, hb, Option.map_some, if_pos hi]
  have hsettled : (d.linkAll sources target).Settled
      ((d.linkAll sources target).looseExits + L) i := by
    refine ⟨?_, fun ho ↦ ?_⟩
    · rw [(Draft.sameScope_linkAll sources target d).looseExits]
      exact hmem
    · rw [Draft.isClosed_linkAll, hc] at ho
      exact nomatch ho
  exact Ran.leaves_settled hM ⟨_, hb', hat⟩ hsettled he hb'

section

variable {label : String} {source : Nat} {T : Transition DraftTarget} {exits : List Nat}

theorem settled_join {b : Block} (hb : d.code[i]? = some b) (hmem : i ∉ d.looseExits + L) :
    (d.join label source T exits).Settled ((d.join label source T exits).looseExits + L) i := by
  have hlt := (List.getElem?_eq_some_iff.1 hb).1
  rw [d.length_code] at hlt
  refine ⟨?_, fun _ ↦ Nat.ne_of_lt hlt⟩
  rw [(d.sameScope_join label source T exits).looseExits]
  exact hmem

theorem Ran.joined (hM : M.Realizes name e.code) (h : x.Ran name t d.code i m) (hi : i ∈ exits)
    (hmem : i ∉ d.looseExits + L) (he : (d.join label source T exits).KeptIn L e) :
    ∃ t' > t, x.Works name t t' ∧ x.Enters name t' (.state d.nextState) m := by
  obtain ⟨b, hb, hat⟩ := h
  have hb' := d.getElem?_join label source T exits hb
  rw [if_pos hi] at hb'
  exact Ran.leaves_settled hM ⟨_, hb', hat⟩ (settled_join hb hmem) he hb'

theorem Ran.branched (hM : M.Realizes name e.code) (h : x.Ran name t d.code source m)
    (hi : source ∉ exits) (hmem : source ∉ d.looseExits + L)
    (he : (d.join label source T exits).KeptIn L e) :
    ∃ t' > t, x.Works name t t' ∧ x.Enters name t'
      (T.next (fun c ↦ I.truth (c.eval I (x.inputs (t' - 1)) m.values)) (.state source)) m := by
  obtain ⟨b, hb, hat⟩ := h
  have hb' := d.getElem?_join label source T exits hb
  rw [if_neg hi, if_pos rfl] at hb'
  exact Ran.leaves_settled hM ⟨_, hb', hat⟩ (settled_join hb hmem) he hb'

end

end Execution

end Fabric
