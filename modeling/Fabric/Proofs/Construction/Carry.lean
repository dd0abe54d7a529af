import Fabric.Proofs.Construction.Call
import Fabric.Proofs.Construction.Follow

namespace Fabric

variable {V ι : Type} {I : Interpretation V} {M : Machine ι}

theorem Draft.Reaches.proper {Γ : Interface} {P Q : Prop} {d d' : Draft} {L : Multiset Nat}
    (h : d.Reaches Γ P d' Q) (hP : P) (hc : Γ.Covers d') (hd : d.Proper Γ L) :
    Γ.Covers d ∧ d'.Proper Γ L ∧ d.Before L d' L ∧ Q := by
  obtain ⟨B, C, he⟩ := h.evolves
  have hplain : Evolves Γ (d.Scoped Γ) B C [] d d' (d'.Scoped Γ) :=
    he.conseq (fun hs ↦ ⟨hs, hP⟩) fun _ h ↦ h.1
  obtain ⟨hproper, hbefore⟩ := Draft.Proper.evolve hplain hc hd
  exact ⟨hc.mono he.toGrows, hproper, hbefore, (he.run hc ⟨hd.typed, hP⟩).1.2⟩

namespace Execution

variable (x : Execution I M) (name : DraftTarget → ι) (z : Draft) (Γ : Interface)

/-- A part of the lowering in the making of the draft `z`, from one draft to another. -/
structure Carries (P : Prop) (d d' : Draft) (Q : Prop) (pre : Memory V → Prop)
    (post : Memory V → Memory V → Prop) : Prop where
  reaches : d.Reaches Γ P d' Q
  follows : P → ∀ ⦃L : Multiset Nat⦄ ⦃t : Nat⦄ ⦃m : Memory V⦄, d.Proper Γ L → Γ.Covers d' →
    d'.KeptIn L z → x.Stands name t d m → pre m →
    ∃ t' m', x.Works name t t' ∧ x.Stands name t' d' m' ∧ post m m'

namespace Carries

variable {x name z Γ} {P P' Q Q' S : Prop} {d d' d'' : Draft} {pre pre' : Memory V → Prop}
  {post post' : Memory V → Memory V → Prop}

theorem opened (h : x.Carries name z Γ P d d' Q pre post) : d'.isClosed = false := h.reaches.opened

theorem conseq (h : x.Carries name z Γ P d d' Q pre post) (hP : P' → P) (hQ : P' → Q → Q')
    (hpre : ∀ m, pre' m → pre m) (hpost : ∀ m m', pre' m → post m m' → post' m m') :
    x.Carries name z Γ P' d d' Q' pre' post' where
  reaches := h.reaches.conseq hP hQ
  follows hP' L t m hd hc hz hs hm := by
    obtain ⟨t', m', hworks, hs', hm'⟩ := h.follows (hP hP') hd hc hz hs (hpre m hm)
    exact ⟨t', m', hworks, hs', hpost m m' hm hm'⟩

theorem seq (h : x.Carries name z Γ P d d' Q pre post)
    (h' : x.Carries name z Γ P' d' d'' Q' pre' post') (hmid : P → Q → P')
    (hQ : P → Q → Q' → S) (hpre : ∀ m m', pre m → post m m' → pre' m') :
    x.Carries name z Γ P d d'' S pre fun m m'' ↦ ∃ m', post m m' ∧ post' m' m'' where
  reaches := h.reaches.seq h'.reaches hmid hQ
  follows hP L t m hd hc hz hs hm := by
    have hmiddle (hQ : Q) := hmid hP hQ
    obtain ⟨B, C, he'⟩ := h'.reaches.evolves
    have hc' : Γ.Covers d' := hc.mono he'.toGrows
    obtain ⟨-, hd', -, hq⟩ := h.reaches.proper hP hc' hd
    obtain ⟨-, -, hbefore, -⟩ := h'.reaches.proper (hmiddle hq) hc hd'
    obtain ⟨t₁, m₁, hworks₁, hs₁, hm₁⟩ := h.follows hP hd hc' (hbefore.keptIn hz) hs hm
    obtain ⟨t₂, m₂, hworks₂, hs₂, hm₂⟩ :=
      h'.follows (hmiddle hq) hd' hc hz hs₁ (hpre m m₁ hm hm₁)
    exact ⟨t₂, m₂, hworks₁.trans hworks₂, hs₂, m₁, hm₁, hm₂⟩

theorem ofScope (h : d.Reaches Γ P d' Q) (hsite : ∀ L R E, d'.site L R E = d.site L R E) :
    x.Carries name z Γ P d d' Q (fun _ ↦ True) fun m m' ↦ m' = m where
  reaches := h
  follows _ _ t m _ _ _ hs _ := ⟨t, m, .refl t, hs.of_site hsite, rfl⟩

theorem refl (ho : d.isClosed = false) (hQ : P → Q) :
    x.Carries name z Γ P d d Q (fun _ ↦ True) fun m m' ↦ m' = m :=
  ofScope (.refl ho hQ) fun _ _ _ ↦ rfl

theorem temporary (ho : d.isClosed = false) (type : HwType) (comment : String) :
    x.Carries name z Γ P d (d.temporary type comment).2
      (Γ.Declares (d.temporary type comment).1 type) (fun _ ↦ True) fun m m' ↦ m' = m :=
  ofScope (.temporary ho type comment) fun _ _ _ ↦ rfl

theorem setResult (ho : d.isClosed = false) (id : NodeId) (value : Option Lowered) :
    x.Carries name z Γ (∀ v, value = some v → v.Typed Γ) d (d.setResult id value) True
      (fun _ ↦ True) fun m m' ↦ m' = m :=
  ofScope (.setResult ho id value) fun _ _ _ ↦ rfl

variable (hM : M.Realizes name z.code)

include hM

theorem reserve (ho : d.isClosed = false) (cost : Binary64) :
    x.Carries name z Γ P d (d.reserve cost) P (fun _ ↦ True) fun m m' ↦ m' = m where
  reaches := .reserve ho cost
  follows _ L t m hd _ hz hs _ := by
    obtain ⟨t', hworks, hs'⟩ := hs.reserve hM hd.valid hz
    exact ⟨t', m, hworks, hs', rfl⟩

theorem emit (ho : d.isClosed = false) {s : HwStmt} (hp : s.IsPlain) (cost : Binary64) :
    x.Carries name z Γ (s.Typed Γ) d (d.emit s cost) True (fun _ ↦ True)
      fun m m' ↦ ∃ inputs, m' = HwStmt.exec I inputs s m where
  reaches := .emit ho hp cost
  follows _ L t m hd _ hz hs _ := by
    obtain ⟨t', hworks, hs'⟩ := hs.emit hM hd.valid hz
    exact ⟨t', _, hworks, hs', _, rfl⟩

section

variable {pre₁ pre₂ : Memory V → Prop} {post₁ post₂ : Memory V → Memory V → Prop} {d₁ d₂ : Draft}
  {label label' : String} {T : Transition DraftTarget}

/-- A part around which control may pass. -/
theorem ifThen (join : String) (ho : d.isClosed = false)
    (h : x.Carries name z Γ P ((d.addState label).enter d.nextState) d₁ Q pre₁ post₁)
    (ht : P → T.Typed Γ) (hinto : T.Into {d.nextState, d₁.nextState}) {b : Bool}
    (hnext : ∀ m, pre m → ∀ inputs,
      T.next (fun c ↦ I.truth (c.eval I inputs m.values)) (.state d.current) =
        if b then .state d.nextState else .state d₁.nextState)
    (hpre : ∀ m, pre m → b = true → pre₁ m) :
    x.Carries name z Γ P d (d₁.join join d.current T [d₁.current]) Q pre
      fun m m' ↦ if b then post₁ m m' else m' = m where
  reaches := .ifThen join ho h.reaches ht hinto
  follows hP L t m hd hc hz hs hm := by
    have hc₁ : Γ.Covers d₁ := hc.mono (.of_sameScope (d₁.sameScope_join _ _ _ _))
    obtain ⟨-, hd₁, hbefore₁, -⟩ := h.reaches.proper hP hc₁ (hd.fork label)
    have hsource : d.current ∈ (↑d.exit?.toList + L : Multiset Nat) := by
      simp [Draft.exit?_of_open ho]
    have hjoin : d₁.Before (↑d.exit?.toList + L) (d₁.join join d.current T [d₁.current]) L := by
      refine Draft.before_join join T hsource (fun i hi ↦ .inl ?_)
        (Multiset.subset_of_le (Multiset.le_add_left _ _))
      rw [List.mem_singleton.1 hi]
      exact Draft.exit?_of_open h.opened
    have hnodup : ({d₁.current} + ({d.current} + (d₁.looseExits + L)) : Multiset Nat).Nodup := by
      have hn := hd₁.nodup
      rwa [Draft.exit?_of_open ho, Draft.exit?_of_open h.opened, Option.toList_some,
        Option.toList_some, Multiset.coe_singleton, Multiset.coe_singleton,
        add_left_comm d₁.looseExits] at hn
    obtain ⟨-, hout, hapart⟩ := Multiset.nodup_add.1 hnodup
    have hloose : d.current ∉ d₁.looseExits + L := by
      intro hmem
      exact (Multiset.disjoint_left.1 (Multiset.nodup_add.1 hout).2.2)
        (Multiset.mem_singleton_self _) hmem
    have hne : d.current ∉ [d₁.current] := by
      intro hmem
      refine Multiset.disjoint_left.1 hapart (Multiset.mem_singleton_self d₁.current) ?_
      rw [← List.mem_singleton.1 hmem]
      exact Multiset.mem_add.2 (.inl (Multiset.mem_singleton_self _))
    -- The state that branches has been loose since the part was begun.
    have hran := (hs.ran.fork label).later (Multiset.mem_add.2 (.inr hsource)) hbefore₁
    obtain ⟨t₁, -, hworks₁, henters₁⟩ := hran.branched hM hne hloose hz
    rw [hnext m hm] at henters₁
    cases b with
    | false => exact ⟨t₁, m, hworks₁, henters₁.stands_join join _ _ _, rfl⟩
    | true =>
      obtain ⟨t₂, m', hworks₂, hs₂, hm'⟩ := h.follows hP (hd.fork label) hc₁ (hjoin.keptIn hz)
        (henters₁.stands_fork label) (hpre m hm rfl)
      obtain ⟨t₃, -, hworks₃, henters₃⟩ := hs₂.ran.joined hM (List.mem_singleton_self _)
        (fun hmem ↦ Multiset.disjoint_left.1 hapart (Multiset.mem_singleton_self _)
          (Multiset.mem_add.2 (.inr hmem))) hz
      exact ⟨t₃, m', (hworks₁.trans hworks₂).trans hworks₃, henters₃.stands_join join _ _ _, hm'⟩

/-- Two parts, one of which control takes. -/
theorem ifElse (join : String) (ho : d.isClosed = false)
    (h : x.Carries name z Γ P ((d.addState label).enter d.nextState) d₁ Q pre₁ post₁)
    (h' : x.Carries name z Γ P ((d₁.addState label').enter d₁.nextState) d₂ Q' pre₂ post₂)
    (ht : P → T.Typed Γ) (hinto : T.Into {d.nextState, d₁.nextState}) {b : Bool}
    (hnext : ∀ m, pre m → ∀ inputs,
      T.next (fun c ↦ I.truth (c.eval I inputs m.values)) (.state d.current) =
        if b then .state d.nextState else .state d₁.nextState)
    (hpre : ∀ m, pre m → if b then pre₁ m else pre₂ m) :
    x.Carries name z Γ P d (d₂.join join d.current T [d₁.current, d₂.current]) Q' pre
      fun m m' ↦ if b then post₁ m m' else post₂ m m' where
  reaches := .ifElse join ho h.reaches h'.reaches ht hinto
  follows hP L t m hd hc hz hs hm := by
    have hc₂ : Γ.Covers d₂ := hc.mono (.of_sameScope (d₂.sameScope_join _ _ _ _))
    obtain ⟨B, C, he'⟩ := h'.reaches.evolves
    have hc₁ : Γ.Covers d₁ := (hc₂.mono he'.toGrows).mono (.of_sameScope (d₁.sameScope_fork label'))
    obtain ⟨-, hd₁, hbefore₁, -⟩ := h.reaches.proper hP hc₁ (hd.fork label)
    obtain ⟨-, hd₂, hbefore₂, -⟩ := h'.reaches.proper hP hc₂ (hd₁.fork label')
    have hsource : d.current ∈ (↑d.exit?.toList + L : Multiset Nat) := by
      simp [Draft.exit?_of_open ho]
    have hexit : d₁.current ∈ (↑d₁.exit?.toList + (↑d.exit?.toList + L) : Multiset Nat) := by
      simp [Draft.exit?_of_open h.opened]
    have hjoin : d₂.Before (↑d₁.exit?.toList + (↑d.exit?.toList + L))
        (d₂.join join d.current T [d₁.current, d₂.current]) L := by
      refine Draft.before_join join T (Multiset.mem_add.2 (.inr hsource)) (fun i hi ↦ ?_) ?_
      · rcases List.mem_cons.1 hi with rfl | hi
        · exact .inr hexit
        · rw [List.mem_singleton.1 hi]
          exact .inl (Draft.exit?_of_open h'.opened)
      · rw [← add_assoc]
        exact Multiset.subset_of_le (Multiset.le_add_left _ _)
    have hnodup : ({d₁.current, d₂.current} + ({d.current} + (d₂.looseExits + L)) :
        Multiset Nat).Nodup := by
      have hn := hd₂.nodup
      rw [Draft.exit?_of_open ho, Draft.exit?_of_open h.opened, Draft.exit?_of_open h'.opened,
        Option.toList_some, Option.toList_some, Option.toList_some, Multiset.coe_singleton,
        Multiset.coe_singleton, Multiset.coe_singleton] at hn
      have heq : ({d₁.current, d₂.current} + ({d.current} + (d₂.looseExits + L)) : Multiset Nat) =
          {d₂.current} + (d₂.looseExits + ({d₁.current} + ({d.current} + L))) := by
        rw [Multiset.insert_eq_cons, ← Multiset.singleton_add]
        abel
      rwa [heq]
    obtain ⟨-, hout, hapart⟩ := Multiset.nodup_add.1 hnodup
    have hmem {i : Nat} (hi : i ∈ [d₁.current, d₂.current]) :
        i ∈ ({d₁.current, d₂.current} : Multiset Nat) := by simpa using hi
    have hloose : d.current ∉ d₂.looseExits + L := by
      intro hmem
      exact (Multiset.disjoint_left.1 (Multiset.nodup_add.1 hout).2.2)
        (Multiset.mem_singleton_self _) hmem
    have hne : d.current ∉ [d₁.current, d₂.current] := by
      intro hin
      exact Multiset.disjoint_left.1 hapart (hmem hin)
        (Multiset.mem_add.2 (.inl (Multiset.mem_singleton_self _)))
    -- Both exits lead to the state in which control comes together.
    have hjoined {i t₁ : Nat} {m₁ : Memory V} (hi : i ∈ [d₁.current, d₂.current])
        (hran : x.Ran name t₁ d₂.code i m₁) : ∃ t₂, x.Works name t₁ t₂ ∧
          x.Stands name t₂ (d₂.join join d.current T [d₁.current, d₂.current]) m₁ := by
      obtain ⟨t₂, -, hworks, henters⟩ := hran.joined hM hi
        (fun hin ↦ Multiset.disjoint_left.1 hapart (hmem hi) (Multiset.mem_add.2 (.inr hin))) hz
      exact ⟨t₂, hworks, henters.stands_join join _ _ _⟩
    have hran := (hs.ran.fork label).later (Multiset.mem_add.2 (.inr hsource)) hbefore₁
    have hran₂ := (hran.fork label').later
      (Multiset.mem_add.2 (.inr (Multiset.mem_add.2 (.inr hsource)))) hbefore₂
    obtain ⟨t₁, -, hworks₁, henters₁⟩ := hran₂.branched hM hne hloose hz
    rw [hnext m hm] at henters₁
    have hpre := hpre m hm
    cases b with
    | false =>
      obtain ⟨t₂, m', hworks₂, hs₂, hm'⟩ := h'.follows hP (hd₁.fork label') hc₂ (hjoin.keptIn hz)
        (henters₁.stands_fork label') hpre
      obtain ⟨t₃, hworks₃, hs₃⟩ := hjoined (by simp) hs₂.ran
      exact ⟨t₃, m', (hworks₁.trans hworks₂).trans hworks₃, hs₃, hm'⟩
    | true =>
      have hz₁ := (d₁.before_fork (↑d.exit?.toList + L) label').keptIn
        (hbefore₂.keptIn (hjoin.keptIn hz))
      obtain ⟨t₂, m', hworks₂, hs₂, hm'⟩ := h.follows hP (hd.fork label) hc₁ hz₁
        (henters₁.stands_fork label) hpre
      obtain ⟨t₃, hworks₃, hs₃⟩ := hjoined (by simp)
        ((hs₂.ran.fork label').later (Multiset.mem_add.2 (.inr hexit)) hbefore₂)
      exact ⟨t₃, m', (hworks₁.trans hworks₂).trans hworks₃, hs₃, hm'⟩

end

end Carries

end Execution

end Fabric
