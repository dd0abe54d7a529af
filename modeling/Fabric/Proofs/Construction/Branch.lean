import Fabric.Proofs.Construction.Handshake

namespace Fabric

namespace Draft

variable {Γ : Interface} {P P' Q Q' : Prop} {B B' C C' R R' : List Nat} {d d₁ d₂ : Draft}

def join (d : Draft) (label : String) (source : Nat) (t : Transition DraftTarget)
    (exits : List Nat) : Draft :=
  (((d.addState label).setTransition source t).linkAll exits d.nextState).enter d.nextState

theorem sameScope_join (d : Draft) (label : String) (source : Nat) (t : Transition DraftTarget)
    (exits : List Nat) : SameScope d (d.join label source t exits) :=
  have h : SameScope d ((d.addState label).setTransition source t) := ⟨rfl, rfl, rfl, rfl, rfl, rfl⟩
  (h.trans (sameScope_linkAll exits d.nextState _)).trans ⟨rfl, rfl, rfl, rfl, rfl, rfl⟩

theorem sameScope_fork (d : Draft) (label : String) :
    SameScope d ((d.addState label).enter d.nextState) :=
  ⟨rfl, rfl, rfl, rfl, rfl, rfl⟩

@[simp]
theorem current_linkAll (sources : List Nat) (target : Nat) (d : Draft) :
    (d.linkAll sources target).current = d.current := by
  induction sources generalizing d with
  | nil => rfl
  | cons i rest ih => exact ih (d.link i target)

@[simp]
theorem nextState_linkAll (sources : List Nat) (target : Nat) (d : Draft) :
    (d.linkAll sources target).nextState = d.nextState := by
  induction sources generalizing d with
  | nil => rfl
  | cons i rest ih => exact (ih (d.link i target)).trans (d.nextState_link i target)

@[simp]
theorem isClosed_linkAll (sources : List Nat) (target : Nat) (d : Draft) :
    (d.linkAll sources target).isClosed = d.isClosed := by
  induction sources generalizing d with
  | nil => rfl
  | cons i rest ih => exact ih (d.link i target)

theorem exit?_of_open (ho : d.isClosed = false) : d.exit? = some d.current := by
  simp [exit?, ho]

end Draft

theorem Transition.Into.mono {E E' : Set Nat} {t : Transition DraftTarget} (h : t.Into E)
    (hsub : E ⊆ E') : t.Into E' := by
  refine ⟨h.1, fun x hx ↦ ?_⟩
  obtain ⟨e, he, rfl⟩ := h.2 x hx
  exact ⟨e, hsub he, rfl⟩

namespace Evolves

variable {Γ : Interface} {P P' Q Q' : Prop} {B B' C C' R R' : List Nat} {d d₁ d₂ : Draft}
  {label label' : String} {t : Transition DraftTarget}

theorem ifThen (join : String) (ho : d.isClosed = false)
    (h : Evolves Γ P B C R ((d.addState label).enter d.nextState) d₁ Q)
    (ht : P → t.Typed Γ) (hinto : t.Into {d.nextState, d₁.nextState}) :
    Evolves Γ P B C R d (d₁.join join d.current t d₁.exit?.toList) Q where
  toGrows := by
    simpa using ((Draft.Grows.of_sameScope (d.sameScope_fork label)).trans h.toGrows).trans
      (.of_sameScope (d₁.sameScope_join join d.current t d₁.exit?.toList))
  run hc hP := by
    have hcov : Γ.Covers d₁ := hc.mono (.of_sameScope (d₁.sameScope_join _ _ _ _))
    refine ⟨(h.run hcov hP).1, fun L R₀ E hg ↦ ?_⟩
    obtain ⟨E', hmem, -, hm⟩ := h.forked hcov hP L R₀ E hg
    have hsuspend := Moves.suspend (Γ := Γ) (L := ↑B + ↑C + (↑d.exit?.toList + L)) (R := ↑R + R₀)
      (E := E') d₁
    have hjoin := d₁.moves_join join d.current d₁.exit?.toList
      (L := ↑B + ↑C + L) (R := ↑R + R₀) (E := E') (ht hP)
      (hinto.mono (Set.insert_subset (Set.mem_insert_of_mem _ hmem)
        (Set.singleton_subset_iff.2 (Set.mem_insert _ _))))
    have hL : (↑d₁.exit?.toList + (↑B + ↑C + (↑d.exit?.toList + L)) : Multiset Nat) =
        d.current ::ₘ (↑d₁.exit?.toList + (↑B + ↑C + L)) := by
      rw [Draft.exit?_of_open ho, Option.toList_some, Multiset.coe_singleton,
        ← Multiset.singleton_add]
      abel
    rw [hL] at hsuspend
    exact ⟨insert d₁.nextState E', (hm.trans hsuspend).trans hjoin⟩

theorem ifElse (join : String) (ho : d.isClosed = false)
    (h : Evolves Γ P B C R ((d.addState label).enter d.nextState) d₁ Q)
    (h' : Evolves Γ P' B' C' R' ((d₁.addState label').enter d₁.nextState) d₂ Q')
    (hmid : P → Q → P') (ht : P → t.Typed Γ) (hinto : t.Into {d.nextState, d₁.nextState}) :
    Evolves Γ P (B ++ B') (C ++ C') (R ++ R') d
      (d₂.join join d.current t (d₁.exit?.toList ++ d₂.exit?.toList)) (Q ∧ Q') where
  toGrows := by
    have hfirst := (Draft.Grows.of_sameScope (d.sameScope_fork label)).trans h.toGrows
    have hsecond := (Draft.Grows.of_sameScope (d₁.sameScope_fork label')).trans h'.toGrows
    simpa using (hfirst.trans hsecond).trans
      (.of_sameScope (d₂.sameScope_join join d.current t (d₁.exit?.toList ++ d₂.exit?.toList)))
  run hc hP := by
    have hcov : Γ.Covers d₂ := hc.mono (.of_sameScope (d₂.sameScope_join _ _ _ _))
    have hcov' : Γ.Covers d₁ := (hcov.mono h'.toGrows).mono (.of_sameScope (d₁.sameScope_fork _))
    have hQ := (h.run hcov' hP).1
    refine ⟨⟨hQ, (h'.run hcov (hmid hP hQ)).1⟩, fun L R₀ E hg ↦ ?_⟩
    obtain ⟨E₁, hmem₁, -, hm₁⟩ := h.forked hcov' hP L R₀ E hg
    obtain ⟨E₂, hmem₂, hsub₂, hm₂⟩ := h'.forked hcov (hmid hP hQ) _ _ _ (hm₁.good hg)
    have hsuspend := Moves.suspend (Γ := Γ)
      (L := ↑B' + ↑C' + (↑d₁.exit?.toList + (↑B + ↑C + (↑d.exit?.toList + L))))
      (R := ↑R' + (↑R + R₀)) (E := E₂) d₂
    have hjoin := d₂.moves_join join d.current (d₁.exit?.toList ++ d₂.exit?.toList)
      (L := ↑(B ++ B') + ↑(C ++ C') + L) (R := ↑(R ++ R') + R₀) (E := E₂) (ht hP)
      (hinto.mono (Set.insert_subset (Set.mem_insert_of_mem _ (hsub₂ hmem₁))
        (Set.singleton_subset_iff.2 (Set.mem_insert_of_mem _ hmem₂))))
    have hL : (↑d₂.exit?.toList + (↑B' + ↑C' + (↑d₁.exit?.toList +
        (↑B + ↑C + (↑d.exit?.toList + L)))) : Multiset Nat) =
        d.current ::ₘ (↑(d₁.exit?.toList ++ d₂.exit?.toList) + (↑(B ++ B') + ↑(C ++ C') + L)) := by
      rw [Draft.exit?_of_open ho, Option.toList_some, Multiset.coe_singleton,
        ← Multiset.singleton_add]
      simp only [← Multiset.coe_add]
      abel
    have hR : (↑R' + (↑R + R₀) : Multiset Nat) = ↑(R ++ R') + R₀ := by
      rw [← Multiset.coe_add]
      abel
    rw [hL, hR] at hsuspend
    rw [hR] at hm₂
    exact ⟨insert d₂.nextState E₂, ((hm₁.trans hm₂).trans hsuspend).trans hjoin⟩

end Evolves

namespace Draft

variable {Γ : Interface} {B C R : List Nat} {d d' : Draft}

/-- The exits of a loop that is inside are not exits of the one around it. -/
theorem Grows.innerLoop (h : Grows B C R { d with loops := ⟨[], []⟩ :: d.loops } d') :
    Grows [] [] R d { d' with loops := d.loops } ∧ d'.loops = ⟨B, C⟩ :: d.loops := by
  refine ⟨⟨h.declared, h.slots, ?_, fun _ ↦ ⟨rfl, rfl⟩, h.frame, h.returns⟩, ?_⟩
  · cases d.loops with
    | nil => rfl
    | cons x rest => simp [LoopExits.add]
  · rw [h.loops]
    simp [LoopExits.add]

/-- What the step of a loop adds: control passes from `again` back to the head, and the exits of the
body are left loose. -/
structure Steps (Γ : Interface) (P : Prop) (head : Nat) (B C R : List Nat) (d : Draft) (again : Nat)
    (d' : Draft) (Q : Prop) : Prop extends Grows B C R d d' where
  run : Γ.Covers d' → P → Q ∧ ∀ (L R₀ : Multiset Nat) (E : Set Nat), head ∈ E →
    (d.site L R₀ E).Good → ∃ E', again ∈ E' ∧ Moves Γ (d.site L R₀ E)
      ⟨d'.code, d'.current, true, ↑B + ↑C + (↑d.exit?.toList + L), ↑R + R₀, E'⟩

theorem Steps.none {P Q : Prop} {head : Nat} (d : Draft) (hQ : P → Q) :
    Steps Γ P head [] [] [] d head d Q where
  toGrows := .refl d
  run _ hP := ⟨hQ hP, fun L R₀ E hhead _ ↦ ⟨E, hhead, by simpa using Moves.suspend d⟩⟩

theorem Steps.some {P Q : Prop} {head : Nat} {label : String}
    (h : Evolves Γ P B C R ((d.addState label).enter d.nextState) d' Q) :
    Steps Γ P head B C R d d.nextState (d'.linkAll d'.exit?.toList head) Q where
  toGrows := by
    simpa using ((Grows.of_sameScope (d.sameScope_fork label)).trans h.toGrows).trans
      (.of_sameScope (sameScope_linkAll d'.exit?.toList head d'))
  run hc hP := by
    have hcov : Γ.Covers d' := hc.mono (.of_sameScope (sameScope_linkAll _ _ _))
    refine ⟨(h.run hcov hP).1, fun L R₀ E hhead hg ↦ ?_⟩
    obtain ⟨E', hmem, hsub, hm⟩ := h.forked hcov hP L R₀ E hg
    have hsuspend := Moves.suspend (Γ := Γ) (L := ↑B + ↑C + (↑d.exit?.toList + L)) (R := ↑R + R₀)
      (E := E') d'
    have hlink : Moves Γ ⟨d'.code, d'.current, true, ↑d'.exit?.toList +
        (↑B + ↑C + (↑d.exit?.toList + L)), ↑R + R₀, E'⟩ _ :=
      Moves.settleAll (hsub hhead) d'.exit?.toList d'.code
    rw [← code_linkAll] at hlink
    rw [current_linkAll]
    exact ⟨E', hmem, (hm.trans hsuspend).trans hlink⟩

theorem head_mem {L R : Multiset Nat} {E E' : Set Nat} (hg : (d.site L R E).Good)
    (ho : d.isClosed = false) {label : String}
    (hm : Moves Γ (d.site L R E) ((d.openState label).site L R E')) :
    (d.openState label).current ∈ E' := by
  obtain ⟨b, hb, hbody⟩ := body_openState hg ho label
  obtain ⟨-, b', hb', -, hentry⟩ := (hm.good hg).opened (isClosed_openState ho label)
  obtain rfl := Option.some.inj (hb.symm.trans hb')
  exact hentry hbody

end Draft

namespace Evolves

variable {Γ : Interface} {P P₂ P₃ Q₁ Q₂ Q₃ : Prop} {B₀ C₀ B C R B' C' R' : List Nat}
  {d d₁ d₂ d₃ : Draft} {label label' : String} {t : Transition DraftTarget} {again : Nat}

/-- A loop: its head, its condition, its body and its step. -/
theorem loop (exit : String) (ho : d.isClosed = false)
    (hcondition : Evolves Γ P B₀ C₀ [] (d.openState label) d₁ Q₁) (ho₁ : d₁.isClosed = false)
    (hbody : Evolves Γ P₂ B C R
      { (d₁.addState label').enter d₁.nextState with loops := ⟨[], []⟩ :: d₁.loops } d₂ Q₂)
    (hstep : Draft.Steps Γ P₃ (d.openState label).current B' C' R' { d₂ with loops := d₁.loops }
      again d₃ Q₃)
    (hmid : P → Q₁ → P₂) (hmid' : P → Q₁ → Q₂ → P₃) (ht : Q₁ → t.Typed Γ)
    (hinto : t.Into {d₁.nextState, d₃.nextState}) :
    Evolves Γ P (B₀ ++ B') (C₀ ++ C') (R ++ R') d
      ((d₃.linkAll (d₂.exit?.toList ++ C) again).join exit d₁.current t B) (Q₁ ∧ Q₂ ∧ Q₃) := by
  have hinner := Draft.Grows.innerLoop (d := (d₁.addState label').enter d₁.nextState) hbody.toGrows
  have hlinked := Draft.sameScope_linkAll (d₂.exit?.toList ++ C) again d₃
  have hjoined := (d₃.linkAll (d₂.exit?.toList ++ C) again).sameScope_join exit d₁.current t B
  refine ⟨?_, fun hc hP ↦ ?_⟩
  · have h₁ := (Draft.Grows.of_sameScope (d.sameScope_openState label)).trans hcondition.toGrows
    have h₂ := (Draft.Grows.of_sameScope (d₁.sameScope_fork label')).trans hinner.1
    simpa using ((h₁.trans h₂).trans hstep.toGrows).trans (.of_sameScope (hlinked.trans hjoined))
  have hc₃ : Γ.Covers d₃ := hc.mono (.of_sameScope (hlinked.trans hjoined))
  have hc₂' : Γ.Covers { d₂ with loops := d₁.loops } := hc₃.mono hstep.toGrows
  have hc₂ : Γ.Covers d₂ := hc₂'
  have hc₁' : Γ.Covers { (d₁.addState label').enter d₁.nextState with
      loops := ⟨[], []⟩ :: d₁.loops } := hc₂.mono hbody.toGrows
  have hc₁ : Γ.Covers d₁ := hc₁'
  have hQ₁ := (hcondition.run hc₁ hP).1
  have hQ₂ := (hbody.run hc₂ (hmid hP hQ₁)).1
  have hstep := hstep.run hc₃ (hmid' hP hQ₁ hQ₂)
  refine ⟨⟨hQ₁, hQ₂, hstep.1⟩, fun L R₀ E hg ↦ ?_⟩
  obtain ⟨E₀, hm₀⟩ := d.moves_openState (Γ := Γ) (L := L) (R := R₀) (E := E) ho label
  have hhead := Draft.head_mem hg ho hm₀
  obtain ⟨E₁, hm₁⟩ := (hcondition.run hc₁ hP).2 _ _ _ (hm₀.good hg)
  have hg₁ := hm₁.good (hm₀.good hg)
  obtain ⟨E₂, hmem₂, hsub₂, hm₂⟩ := Evolves.forked (d := { d₁ with loops := ⟨[], []⟩ :: d₁.loops })
    hbody hc₂ (hmid hP hQ₁) _ _ _ hg₁
  obtain ⟨E₃, hmem₃, hm₃⟩ := hstep.2 _ _ _ (hsub₂ (hm₁.entries hhead)) (hm₂.good hg₁)
  have hlink : Moves Γ ⟨d₃.code, d₃.current, true, ↑(d₂.exit?.toList ++ C) +
      (d₁.current ::ₘ (↑B + (↑(B₀ ++ B') + ↑(C₀ ++ C') + L))), ↑(R ++ R') + R₀, E₃⟩ _ :=
    Moves.settleAll hmem₃ (d₂.exit?.toList ++ C) d₃.code
  rw [← Draft.code_linkAll] at hlink
  have hE : ({d₁.nextState, d₃.nextState} : Set Nat) ⊆
      insert (d₃.linkAll (d₂.exit?.toList ++ C) again).nextState E₃ := by
    refine Set.insert_subset (Set.mem_insert_of_mem _ (hm₃.entries hmem₂))
      (Set.singleton_subset_iff.2 ?_)
    rw [Draft.nextState_linkAll]
    exact Set.mem_insert _ _
  have hjoin := (d₃.linkAll (d₂.exit?.toList ++ C) again).moves_join exit d₁.current B
    (L := ↑(B₀ ++ B') + ↑(C₀ ++ C') + L) (R := ↑(R ++ R') + R₀) (ht hQ₁) (hinto.mono hE)
  rw [Draft.current_linkAll] at hjoin
  have hL : (↑B' + ↑C' + (↑d₂.exit?.toList + (↑B + ↑C + (↑d₁.exit?.toList +
      (↑B₀ + ↑C₀ + L)))) : Multiset Nat) = ↑(d₂.exit?.toList ++ C) +
      (d₁.current ::ₘ (↑B + (↑(B₀ ++ B') + ↑(C₀ ++ C') + L))) := by
    rw [Draft.exit?_of_open ho₁, Option.toList_some, Multiset.coe_singleton,
      ← Multiset.singleton_add]
    simp only [← Multiset.coe_add]
    abel
  have hR : (↑R' + (↑R + (↑([] : List Nat) + R₀)) : Multiset Nat) = ↑(R ++ R') + R₀ := by
    simp only [← Multiset.coe_add, Multiset.coe_nil]
    abel
  have hm₃' : Moves Γ _ ⟨d₃.code, d₃.current, true, ↑B' + ↑C' + (↑d₂.exit?.toList +
      (↑B + ↑C + (↑d₁.exit?.toList + (↑B₀ + ↑C₀ + L)))), ↑R' + (↑R + (↑([] : List Nat) + R₀)), E₃⟩ :=
    hm₃
  rw [hL, hR] at hm₃'
  exact ⟨_, ((((hm₀.trans hm₁).trans hm₂).trans hm₃').trans hlink).trans hjoin⟩

end Evolves

end Fabric
