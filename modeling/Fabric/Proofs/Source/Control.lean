import Fabric.Proofs.Source.Stmt

namespace Fabric

theorem notMem_of_nodup_add {α : Type} {A B : Multiset α} (h : (A + B).Nodup) {a : α}
    (ha : a ∈ A) : a ∉ B :=
  fun hb ↦ (Multiset.disjoint_left.1 (Multiset.nodup_add.1 h).2.2) ha hb

theorem next_loopTransition (c : Option HwExpr) (body exit : Nat) (holds : HwExpr → Bool)
    (here : DraftTarget) : (Lowering.loopTransition c body exit).next holds here =
      if c.all holds then .state body else .state exit := by
  cases c <;> rfl

/-- A loop ends whose body and step stand in a draft. The states of `A` lead to the step. Those of
`B` lead out of the loop, as does the state that decides, which may lead to the body too. -/
structure Draft.EndsLoop (d : Draft) (c : Option HwExpr) (source body again : Nat)
    (A B : List Nat) (L : Multiset Nat) (d' : Draft) : Prop where
  closed : d.isClosed = true
  eq : d' = (d.linkAll A again).join "loop: exit" source
    (Lowering.loopTransition c body d.nextState) B
  nodup : (↑A + (↑B + ({source} + (d.looseExits + L))) : Multiset Nat).Nodup

namespace Draft.EndsLoop

variable {d d' e : Draft} {c : Option HwExpr} {source body again : Nat} {A B : List Nat}
  {L : Multiset Nat}

theorem before_linkAll (h : d.EndsLoop c source body again A B L d') :
    d.Before (↑A + (↑B + ({source} + L))) (d.linkAll A again) (↑B + ({source} + L)) :=
  Draft.before_linkAll h.closed A again

theorem before_join (h : d.EndsLoop c source body again A B L d') :
    (d.linkAll A again).Before (↑B + ({source} + L)) d' L := by
  rw [h.eq]
  refine Draft.before_join _ _ (by simp) (fun i hi ↦ .inr (Multiset.mem_add.2 (.inl hi))) ?_
  rw [← add_assoc]
  exact Multiset.subset_of_le (Multiset.le_add_left _ _)

theorem before (h : d.EndsLoop c source body again A B L d') :
    d.Before (↑A + (↑B + ({source} + L))) d' L :=
  h.before_linkAll.trans h.before_join

variable {V ι : Type} {I : Interpretation V} {M : Machine ι} {x : Execution I M}
  {name : DraftTarget → ι} {i t : Nat} {m : Memory V}

theorem enters_again (h : d.EndsLoop c source body again A B L d')
    (hM : M.Realizes name e.code) (he : d'.KeptIn L e) (hi : i ∈ A)
    (hran : x.Ran name t d.code i m) :
    ∃ t', x.Works name t t' ∧ x.Enters name t' (.state again) m := by
  have hmem : i ∉ d.looseExits + (↑B + ({source} + L)) := by
    rw [add_left_comm d.looseExits, add_left_comm d.looseExits]
    exact notMem_of_nodup_add h.nodup (Multiset.mem_coe.2 hi)
  obtain ⟨t', -, hworks, henters⟩ := hran.linked hM h.closed hi hmem (h.before_join.keptIn he)
  exact ⟨t', hworks, henters⟩

theorem stands_out (h : d.EndsLoop c source body again A B L d') (hM : M.Realizes name e.code)
    (he : d'.KeptIn L e) (hi : i ∈ B) (hran : x.Ran name t d.code i m) :
    ∃ t', x.Works name t t' ∧ x.Stands name t' d' m := by
  have hran' := hran.later (by simp [hi]) h.before_linkAll
  have hmem : i ∉ (d.linkAll A again).looseExits + L := by
    rw [(sameScope_linkAll A again d).looseExits]
    exact fun hmem ↦ notMem_of_nodup_add (Multiset.nodup_add.1 h.nodup).2.1
      (Multiset.mem_coe.2 hi) (Multiset.mem_add.2 (.inr hmem))
  have hkept := h.eq ▸ he
  obtain ⟨t', -, hworks, henters⟩ := hran'.joined hM hi hmem hkept
  refine ⟨t', hworks, ?_⟩
  rw [h.eq]
  exact henters.stands_join _ _ _ _

theorem decides (h : d.EndsLoop c source body again A B L d') (hM : M.Realizes name e.code)
    (he : d'.KeptIn L e) (hran : x.Ran name t d.code source m) :
    ∃ t' > t, x.Works name t t' ∧
      if c.all fun c ↦ I.truth (c.eval I (x.inputs (t' - 1)) m.values) then
        x.Enters name t' (.state body) m
      else x.Stands name t' d' m := by
  have hran' := hran.later (by simp) h.before_linkAll
  have hnodup := (Multiset.nodup_add.1 h.nodup).2.1
  have hmem : source ∉ (d.linkAll A again).looseExits + L := by
    rw [(sameScope_linkAll A again d).looseExits]
    exact notMem_of_nodup_add (Multiset.nodup_add.1 hnodup).2.1 (Multiset.mem_singleton_self _)
  have hkept := h.eq ▸ he
  obtain ⟨t', hlt, hworks, henters⟩ := hran'.branched hM
    (fun hmem ↦ notMem_of_nodup_add hnodup (Multiset.mem_coe.2 hmem) (by simp)) hmem hkept
  refine ⟨t', hlt, hworks, ?_⟩
  rw [next_loopTransition] at henters
  split at henters
  next hall => exact (if_pos hall).symm ▸ henters
  next hall =>
    rw [if_neg hall, h.eq]
    rw [← nextState_linkAll A again d] at henters
    exact henters.stands_join _ _ _ _

end Draft.EndsLoop

namespace Refines

variable {V ι : Type} {I : Interpretation V} {M : Machine ι} {l : Lowering} {expand : Expansion}
  {Γ : Interface} {S : MemberPlace} {W : View I S} {x : Execution I M} {name : DraftTarget → ι}
  {e : Draft} {cycles : Option Nat} {limit : Nat} {E : Meaning V} {d d' : Draft} {L : Multiset Nat}
  {t : Nat} {m : Memory V} {σ : Store V}

section

variable {d₁ d₂ d₃ : Draft} {B C R B' C' R' : List Nat} {label label' join : String} {c : HwExpr}
  {b : Bool} {r r' : Option (Outcome × Store V)}

theorem follows_ifThen (hM : M.Realizes name e.code) (hd₁ : d₁.Proper Γ L)
    (ho₁ : d₁.isClosed = false)
    (he₂ : Evolves Γ (Draft.Scoped Γ ((d₁.addState label).enter d₁.nextState)) B C R
      ((d₁.addState label).enter d₁.nextState) d₂ (d₂.Scoped Γ)) (hcovers : Γ.Covers d₂)
    (hstands : d₁.KeptIn L e → ∃ t₁, x.Works name t t₁ ∧ x.Stands name t₁ d₁ m)
    (hb : ∀ inputs, I.truth (c.eval I inputs m.values) = b)
    (hthen : ∀ ⦃L t⦄, Draft.Proper Γ L ((d₁.addState label).enter d₁.nextState) →
      d₂.KeptIn L e → x.Stands name t ((d₁.addState label).enter d₁.nextState) m →
      x.Follows name W cycles (fun t m ↦ x.Stands name t d₂ m) t d₂ r)
    (hd' : d' = d₂.join join d₁.current
      (.branch c (.state d₁.nextState) (.state d₂.nextState)) d₂.exit?.toList)
    (he : d'.KeptIn L e) (hm : W.shows m σ) :
    x.Follows name W cycles (fun t m ↦ x.Stands name t d' m) t d'
      (if b then r else some (.normal, σ)) := by
  obtain ⟨hd₂, hbefore₂⟩ := Draft.Proper.evolve he₂ hcovers (hd₁.fork label)
  have hsource : d₁.current ∈ (↑d₁.exit?.toList + L : Multiset Nat) := by
    simp [Draft.exit?_of_open ho₁]
  have hjoin : d₂.Before (↑d₁.exit?.toList + L) d' L := by
    rw [hd']
    exact Draft.before_join join _ hsource (fun i hi ↦ .inl (Option.mem_toList.1 hi))
      (Multiset.subset_of_le (Multiset.le_add_left _ _))
  have hgrows : d₂.Grows [] [] [] d' := by
    rw [hd']
    exact .of_sameScope (d₂.sameScope_join _ _ _ _)
  have hnodup : (↑d₂.exit?.toList + ({d₁.current} + (d₂.looseExits + L)) : Multiset Nat).Nodup := by
    have hn := hd₂.nodup
    rwa [Draft.exit?_of_open ho₁, Option.toList_some, Multiset.coe_singleton,
      add_left_comm d₂.looseExits] at hn
  have hout := (Multiset.nodup_add.1 hnodup).2.1
  obtain ⟨t₀, hworks₀, hs⟩ := hstands ((d₁.before_fork L label).keptIn
    (hbefore₂.keptIn (hjoin.keptIn he)))
  refine .after hworks₀ ?_
  subst hd'
  -- The state that branches has been loose since the part was begun.
  have hran := (hs.ran.fork label).later (Multiset.mem_add.2 (.inr hsource)) hbefore₂
  obtain ⟨t', -, hworks, henters⟩ := hran.branched hM
    (fun hmem ↦ notMem_of_nodup_add hnodup (Multiset.mem_coe.2 hmem) (by simp))
    (notMem_of_nodup_add hout (Multiset.mem_singleton_self _)) he
  rw [Transition.next, hb] at henters
  refine .after hworks ?_
  cases b with
  | false => exact .of_normal hm (henters.stands_join join _ _ _)
  | true =>
    refine (hthen (hd₁.fork label) (hjoin.keptIn he) (henters.stands_fork label)).join
      (fun t₁ m₁ hs₁ ↦ ?_) hjoin hgrows
    have hexit : d₂.current ∈ d₂.exit?.toList := by simp [Draft.exit?_of_open hs₁.opened]
    obtain ⟨t₂, -, hworks₂, henters₂⟩ := hs₁.ran.joined hM hexit (fun hmem ↦
      notMem_of_nodup_add hnodup (Multiset.mem_coe.2 hexit)
        (Multiset.mem_add.2 (.inr hmem))) he
    exact ⟨t₂, hworks₂, henters₂.stands_join join _ _ _⟩

theorem follows_ifElse (hM : M.Realizes name e.code) (hd₁ : d₁.Proper Γ L)
    (ho₁ : d₁.isClosed = false)
    (he₂ : Evolves Γ (Draft.Scoped Γ ((d₁.addState label).enter d₁.nextState)) B C R
      ((d₁.addState label).enter d₁.nextState) d₂ (d₂.Scoped Γ))
    (he₃ : Evolves Γ (Draft.Scoped Γ ((d₂.addState label').enter d₂.nextState)) B' C' R'
      ((d₂.addState label').enter d₂.nextState) d₃ (d₃.Scoped Γ)) (hcovers : Γ.Covers d₃)
    (hstands : d₁.KeptIn L e → ∃ t₁, x.Works name t t₁ ∧ x.Stands name t₁ d₁ m)
    (hb : ∀ inputs, I.truth (c.eval I inputs m.values) = b)
    (hthen : ∀ ⦃L t⦄, Draft.Proper Γ L ((d₁.addState label).enter d₁.nextState) →
      d₂.KeptIn L e → x.Stands name t ((d₁.addState label).enter d₁.nextState) m →
      x.Follows name W cycles (fun t m ↦ x.Stands name t d₂ m) t d₂ r)
    (helse : ∀ ⦃L t⦄, Draft.Proper Γ L ((d₂.addState label').enter d₂.nextState) →
      d₃.KeptIn L e → x.Stands name t ((d₂.addState label').enter d₂.nextState) m →
      x.Follows name W cycles (fun t m ↦ x.Stands name t d₃ m) t d₃ r')
    (hd' : d' = { d₃.join join d₁.current (.branch c (.state d₁.nextState) (.state d₂.nextState))
      (d₂.exit?.toList ++ d₃.exit?.toList) with
        isClosed := d₂.exit?.isNone && d₃.exit?.isNone })
    (he : d'.KeptIn L e) :
    x.Follows name W cycles (fun t m ↦ x.Stands name t d' m) t d' (if b then r else r') := by
  have hcovers₂ : Γ.Covers d₂ :=
    (hcovers.mono he₃.toGrows).mono (.of_sameScope (d₂.sameScope_fork label'))
  obtain ⟨hd₂, hbefore₂⟩ := Draft.Proper.evolve he₂ hcovers₂ (hd₁.fork label)
  obtain ⟨hd₃, hbefore₃⟩ := Draft.Proper.evolve he₃ hcovers (hd₂.fork label')
  have hsource : d₁.current ∈ (↑d₁.exit?.toList + L : Multiset Nat) := by
    simp [Draft.exit?_of_open ho₁]
  have hsource₃ : d₁.current ∈ (↑d₂.exit?.toList + (↑d₁.exit?.toList + L) : Multiset Nat) :=
    Multiset.mem_add.2 (.inr hsource)
  have hjoin : d₃.Before (↑d₂.exit?.toList + (↑d₁.exit?.toList + L)) d' L := by
    rw [hd']
    refine (Draft.before_join (L := ↑d₂.exit?.toList + (↑d₁.exit?.toList + L)) join _ hsource₃
      (fun i hi ↦ ?_) ?_).trans (.close rfl _ _)
    · rcases List.mem_append.1 hi with hi | hi
      · exact .inr (Multiset.mem_add.2 (.inl hi))
      · exact .inl (Option.mem_toList.1 hi)
    · rw [← add_assoc]
      exact Multiset.subset_of_le (Multiset.le_add_left _ _)
  have hgrows : d₃.Grows [] [] [] d' := by
    rw [hd']
    exact .of_sameScope ((d₃.sameScope_join _ _ _ _).trans ⟨rfl, rfl, rfl, rfl, rfl, rfl⟩)
  have hgrows₂ : d₂.Grows _ _ _ d' :=
    ((Draft.Grows.of_sameScope (d₂.sameScope_fork label')).trans he₃.toGrows).trans hgrows
  have hlater₂ := (d₂.before_fork (↑d₁.exit?.toList + L) label').trans (hbefore₃.trans hjoin)
  have hnodup : (↑(d₂.exit?.toList ++ d₃.exit?.toList) +
      ({d₁.current} + (d₃.looseExits + L)) : Multiset Nat).Nodup := by
    have hn := hd₃.nodup
    rw [Draft.exit?_of_open ho₁, Option.toList_some, Multiset.coe_singleton] at hn
    have heq : (↑(d₂.exit?.toList ++ d₃.exit?.toList) + ({d₁.current} + (d₃.looseExits + L)) :
        Multiset Nat) = ↑d₃.exit?.toList + (d₃.looseExits + (↑d₂.exit?.toList +
          ({d₁.current} + L))) := by
      rw [← Multiset.coe_add]
      abel
    rwa [heq]
  have hout := (Multiset.nodup_add.1 hnodup).2.1
  obtain ⟨t₀, hworks₀, hs⟩ := hstands ((d₁.before_fork L label).keptIn
    (hbefore₂.keptIn (hlater₂.keptIn he)))
  refine .after hworks₀ ?_
  subst hd'
  have he' := Draft.KeptIn.of_close rfl he
  -- Control in an exit of a part comes together with that of the other one.
  have hnext {i t₁ : Nat} {m₁ : Memory V} (hi : i ∈ d₂.exit?.toList ++ d₃.exit?.toList)
      (hran : x.Ran name t₁ d₃.code i m₁) : ∃ t₂, x.Works name t₁ t₂ ∧ x.Stands name t₂
        { d₃.join join d₁.current (.branch c (.state d₁.nextState) (.state d₂.nextState))
            (d₂.exit?.toList ++ d₃.exit?.toList) with
          isClosed := d₂.exit?.isNone && d₃.exit?.isNone } m₁ := by
    obtain ⟨t₂, -, hworks₂, henters₂⟩ := hran.joined hM hi (fun hmem ↦
      notMem_of_nodup_add hnodup (Multiset.mem_coe.2 hi) (Multiset.mem_add.2 (.inr hmem))) he'
    refine ⟨t₂, hworks₂, ?_, (henters₂.stands_join join _ _ _).ran⟩
    rw [List.mem_append, Option.mem_toList, Option.mem_toList] at hi
    rcases hi with hi | hi <;> simp [hi]
  have hran₂ := (hs.ran.fork label).later (Multiset.mem_add.2 (.inr hsource)) hbefore₂
  have hran := (hran₂.fork label').later (Multiset.mem_add.2 (.inr hsource₃)) hbefore₃
  obtain ⟨t', -, hworks, henters⟩ := hran.branched hM
    (fun hmem ↦ notMem_of_nodup_add hnodup (Multiset.mem_coe.2 hmem) (by simp))
    (notMem_of_nodup_add hout (Multiset.mem_singleton_self _)) he'
  rw [Transition.next, hb] at henters
  refine .after hworks ?_
  cases b with
  | true =>
    refine (hthen (hd₁.fork label) (hlater₂.keptIn he) (henters.stands_fork label)).join
      (fun t₁ m₁ hs₁ ↦ hnext (i := d₂.current) (by simp [Draft.exit?_of_open hs₁.opened]) ?_)
      hlater₂ hgrows₂
    refine (hs₁.ran.fork label').later (Multiset.mem_add.2 (.inr ?_)) hbefore₃
    simp [Draft.exit?_of_open hs₁.opened]
  | false =>
    exact (helse (hd₂.fork label') (hjoin.keptIn he) (henters.stands_fork label')).join
      (fun t₁ m₁ hs₁ ↦ hnext (i := d₃.current) (by simp [Draft.exit?_of_open hs₁.opened]) hs₁.ran)
      hjoin hgrows

end

theorem branch (hM : M.Realizes name e.code) (hΓ : Γ.Sees l) (hexpand : expand.Sound Γ)
    {id : NodeId} {condition : Expr} {thenBranch : Stmt} {elseBranch : Option Stmt}
    (hgroup : Γ.program.CallsGrouped →
      (Stmt.branch id condition thenBranch elseBranch).Grouped l.program)
    (hids : (Stmt.branch id condition thenBranch elseBranch).callIds.Nodup)
    (hcondition : condition.IsSimpleBeside S.calls)
    (hthen : Refines l expand Γ W x name e cycles thenBranch
      (thenBranch.runIn I S.toScope E limit))
    (helse : ∀ s ∈ elseBranch, Refines l expand Γ W x name e cycles s
      (s.runIn I S.toScope E limit)) :
    Refines l expand Γ W x name e cycles (.branch id condition thenBranch elseBranch)
      (Stmt.runIn I S.toScope E limit (.branch id condition thenBranch elseBranch)) := by
  intro d d' h ho hplain hlacks
  obtain ⟨c, d₁, d₂, elseState, elseExit, d₃, hc, h₂, h₃, h⟩ := Lowering.branch_eq_ok h ho
  obtain ⟨⟨cost, rfl⟩, hholds⟩ := Lowering.condition_simple (I := I) hplain hcondition hc
  have ho₁ := d.isClosed_reserve ho cost
  have hscope₁ := (d.sameScope_reserve cost).trans
    ((d.reserve cost).sameScope_fork "if: then")
  have hchild : thenBranch ∈ (Stmt.branch id condition thenBranch elseBranch).children := by
    simp [Stmt.children]
  have hproceeds₁ : d.Proceeds S [] (((d.reserve cost).addState "if: then").enter
      (d.reserve cost).nextState) := .of_sameScope hplain hscope₁
  obtain ⟨hproceeds₂, hfollows₂⟩ := hthen h₂ rfl hproceeds₁.plain
    (hproceeds₁.lacks_of_nil (hlacks.mono (Stmt.callIds_child hchild)))
  have hproceeds : d.Proceeds S (Stmt.branch id condition thenBranch elseBranch).callIds d₂ :=
    (hproceeds₁.trans hproceeds₂ (List.nil_subset _)).mono (Stmt.callIds_child hchild)
  obtain ⟨B, C, R, he₂⟩ := Lowering.evolves_stmt hΓ hexpand thenBranch
    (fun hp ↦ (hgroup hp).child hchild) h₂
  have hb {m : Memory V} {σ : Store V} (hm : W.shows m σ) (inputs) :
      I.truth (c.eval I inputs m.values) = I.truth (c.eval I (x.inputs 0) m.values) :=
    Option.some.inj ((hholds inputs m.values σ (W.sees hm)).symm.trans
      (hholds (x.inputs 0) m.values σ (W.sees hm)))
  have hrun {m : Memory V} {σ : Store V} (hm : W.shows m σ) :
      Stmt.runIn I S.toScope E limit (.branch id condition thenBranch elseBranch) σ =
        if I.truth (c.eval I (x.inputs 0) m.values) then thenBranch.runIn I S.toScope E limit σ
        else Stmt.runInOption I S.toScope E limit elseBranch σ := by
    rw [Stmt.runIn, hholds (x.inputs 0) m.values σ (W.sees hm)]
    cases I.truth (c.eval I (x.inputs 0) m.values) <;> rfl
  obtain ⟨rfl, rfl, rfl, rfl⟩ | ⟨s, rfl, rfl, rfl, h₄⟩ := Lowering.elseStmt_eq_ok h₃
  · have hd' : d' = d₃.join "if: join" (d.reserve cost).current (.branch c
        (.state (d.reserve cost).nextState) (.state d₃.nextState)) d₃.exit?.toList := by
      rw [h, Option.toList_none, List.append_nil]
      rfl
    have hscope : d₃.SameScope d' := hd' ▸ d₃.sameScope_join _ _ _ _
    refine ⟨hproceeds.trans (.of_sameScope hproceeds.plain hscope) (List.Subset.refl _),
      fun L t m σ hd hcovers he hs hm ↦ ?_⟩
    have hcovers₂ : Γ.Covers d₃ := hcovers.mono (.of_sameScope hscope)
    rw [hrun hm, Stmt.runInOption]
    exact follows_ifThen hM (hd.reserve ho cost).1 ho₁ he₂ hcovers₂ (hs.reserve hM hd.valid) (hb hm)
      (fun L t hproper hkept hs ↦ hfollows₂ hproper hcovers₂ hkept hs hm) hd' he hm
  · have hchild' : s ∈ (Stmt.branch id condition thenBranch (some s)).children := by
      simp [Stmt.children]
    have hapart : ∀ id ∈ thenBranch.callIds, id ∉ s.callIds := by
      rw [Stmt.callIds_eq] at hids
      have hnodup := (List.nodup_append.1 hids).2.1
      simp only [Stmt.children, Option.toList_some, List.flatMap_cons, List.flatMap_nil,
        List.append_nil] at hnodup
      exact fun id hid hid' ↦ (List.nodup_append.1 hnodup).2.2 id hid id hid' rfl
    have hproceeds₃ : d₂.Proceeds S [] ((d₂.addState "if: else").enter d₂.nextState) :=
      .of_sameScope hproceeds.plain (d₂.sameScope_fork "if: else")
    obtain ⟨hproceeds₄, hfollows₄⟩ := helse s rfl h₄ rfl hproceeds₃.plain
      (hproceeds₃.lacks_of_nil ((hproceeds₁.trans hproceeds₂ (List.nil_subset _)).lacks
        (hlacks.mono (Stmt.callIds_child hchild')) hapart))
    obtain ⟨B', C', R', he₄⟩ := Lowering.evolves_stmt hΓ hexpand s
      (fun hp ↦ (hgroup hp).child hchild') h₄
    have hd' : d' = { d₃.join "if: join" (d.reserve cost).current (.branch c
        (.state (d.reserve cost).nextState) (.state d₂.nextState))
        (d₂.exit?.toList ++ d₃.exit?.toList) with
          isClosed := d₂.exit?.isNone && d₃.exit?.isNone } := h
    have hscope : d₃.SameScope d' :=
      hd' ▸ (d₃.sameScope_join _ _ _ _).trans ⟨rfl, rfl, rfl, rfl, rfl, rfl⟩
    have hproceeds' := (hproceeds₃.trans hproceeds₄ (List.nil_subset _)).trans
      (.of_sameScope hproceeds₄.plain hscope) (List.Subset.refl _)
    refine ⟨hproceeds.trans (hproceeds'.mono (Stmt.callIds_child hchild')) (List.Subset.refl _),
      fun L t m σ hd hcovers he hs hm ↦ ?_⟩
    have hcovers₄ : Γ.Covers d₃ := hcovers.mono (.of_sameScope hscope)
    have hcovers₂ : Γ.Covers d₂ :=
      (hcovers₄.mono he₄.toGrows).mono (.of_sameScope (d₂.sameScope_fork "if: else"))
    rw [hrun hm, Stmt.runInOption]
    exact follows_ifElse hM (hd.reserve ho cost).1 ho₁ he₂ he₄ hcovers₄ (hs.reserve hM hd.valid)
      (hb hm) (fun L t hproper hkept hs ↦ hfollows₂ hproper hcovers₂ hkept hs hm)
      (fun L t hproper hkept hs ↦ hfollows₄ hproper hcovers₄ hkept hs hm) hd' he

variable (W x name e cycles) in
/-- The step of a loop, which begins after a draft and is in the next one, leads back to the head of
the loop. What was open before is left loose. -/
structure LeadsBack (head again : Nat) (run : Store V → Option (Outcome × Store V))
    (L : Multiset Nat) (d d' : Draft) : Prop where
  before : d.Before L d'.suspended (↑d.exit?.toList + L)
  nodup : (d'.looseExits + (↑d.exit?.toList + L)).Nodup
  ran : ∀ ⦃t m⦄, x.Stands name t d m → x.Ran name t d'.suspended.code d.current m
  follows : d'.suspended.KeptIn (↑d.exit?.toList + L) e → ∀ ⦃t m σ⦄, W.shows m σ →
    x.Enters name t (.state again) m →
    x.Follows name W cycles (fun t m ↦ x.Enters name t (.state head) m) t d'.suspended (run σ)

theorem leadsBack_step (hM : M.Realizes name e.code) (hΓ : Γ.Sees l) (hexpand : expand.Sound Γ)
    {step : Option Stmt} (hgroup : ∀ s ∈ step, Γ.program.CallsGrouped → s.Grouped l.program)
    (hstep : ∀ s ∈ step, Refines l expand Γ W x name e cycles s (s.runIn I S.toScope E limit))
    {head again : Nat} (h : l.stepStmt expand step head d = .ok (again, d')) (hplain : d.Plain S)
    (hlacks : d.Lacks (step.toList.flatMap Stmt.callIds)) :
    d.Proceeds S (step.toList.flatMap Stmt.callIds) d' ∧ (∃ B C R, d.Grows B C R d') ∧
    ∀ ⦃L⦄, d.Proper Γ L → Γ.Covers d' →
      LeadsBack W x name e cycles head again (Stmt.runInOption I S.toScope E limit step) L d d' := by
  obtain ⟨rfl, rfl, rfl⟩ | ⟨s, d₁, rfl, rfl, h₁, rfl⟩ := Lowering.stepStmt_eq_ok h
  · refine ⟨.refl hplain, ⟨[], [], [], .refl _⟩, fun L hd _ ↦ ⟨Draft.before_suspended _ L, ?_,
      fun t m hs ↦ hs.ran, fun _ t m σ hm henters ↦ ?_⟩⟩
    · have hn := hd.nodup
      rwa [add_left_comm] at hn
    · rw [Stmt.runInOption]
      exact .of_normal hm henters
  · have hcalls : (some s).toList.flatMap Stmt.callIds = s.callIds := by simp
    rw [hcalls] at hlacks ⊢
    have hproceeds₀ : d.Proceeds S [] ((d.addState "loop: step").enter d.nextState) :=
      .of_sameScope hplain (d.sameScope_fork "loop: step")
    obtain ⟨hproceeds₁, hfollows⟩ := hstep s rfl h₁ rfl hproceeds₀.plain
      (hproceeds₀.lacks_of_nil hlacks)
    obtain ⟨B, C, R, he₁⟩ := Lowering.evolves_stmt hΓ hexpand s (hgroup s rfl) h₁
    have hscope := Draft.sameScope_linkAll d₁.exit?.toList head d₁
    have hfork := Draft.Grows.of_sameScope (d.sameScope_fork "loop: step")
    refine ⟨(hproceeds₀.trans hproceeds₁ (List.nil_subset _)).trans
      (.of_sameScope hproceeds₁.plain hscope) (List.Subset.refl _),
      ⟨_, _, _, (hfork.trans he₁.toGrows).trans (.of_sameScope hscope)⟩, fun L hd hcovers ↦ ?_⟩
    have hcovers₁ : Γ.Covers d₁ := hcovers.mono (.of_sameScope hscope)
    obtain ⟨hd₁, hbefore₁⟩ := Draft.Proper.evolve he₁ hcovers₁ (hd.fork "loop: step")
    have hlink : d₁.Before (↑d.exit?.toList + L) (d₁.linkAll d₁.exit?.toList head).suspended
        (↑d.exit?.toList + L) := by
      rw [← Draft.suspended_linkAll]
      exact (d₁.before_suspended _).trans (Draft.before_linkAll rfl _ head)
    refine ⟨(d.before_fork L "loop: step").trans (hbefore₁.trans hlink), ?_, fun t m hs ↦ ?_,
      fun he t m σ hm henters ↦ ?_⟩
    · rw [hscope.looseExits]
      exact hd₁.valid.nodup
    · have hmem : d.current ∈ (↑d.exit?.toList + L : Multiset Nat) := by
        simp [Draft.exit?_of_open hs.opened]
      exact ((hs.ran.fork "loop: step").later (Multiset.mem_add.2 (.inr hmem)) hbefore₁).later
        (Multiset.mem_add.2 (.inr hmem)) hlink
    · rw [Stmt.runInOption]
      refine (hfollows (hd.fork "loop: step") hcovers₁ (hlink.keptIn he)
        (henters.stands_fork "loop: step") hm).join (fun t₁ m₁ hs₁ ↦ ?_) hlink
        (.of_sameScope (hscope.trans ⟨rfl, rfl, rfl, rfl, rfl, rfl⟩))
      rw [← Draft.suspended_linkAll] at he
      have hexit : d₁.current ∈ d₁.exit?.toList := by simp [Draft.exit?_of_open hs₁.opened]
      have hran : x.Ran name t₁ d₁.suspended.code d₁.current m₁ := hs₁.ran
      obtain ⟨t₂, -, hworks, henters₂⟩ := hran.linked hM rfl hexit
        (notMem_of_nodup_add hd₁.nodup (Multiset.mem_coe.2 hexit)) he
      exact ⟨t₂, hworks, henters₂⟩

/-- Rounds of a loop. From its head control goes on to the body or leaves the loop, and from the
body, unless it leaves the loop, to the step and back to the head. -/
theorem follows_rounds (inBody inStep : Nat → Memory V → Prop) {goesOn : Store V → Option Bool}
    {body step : Store V → Option (Outcome × Store V)} {here : Nat → Memory V → Prop} {head : Nat}
    (hhead : ∀ t m σ, W.shows m σ → x.Enters name t (.state head) m → ∃ b, goesOn σ = some b ∧
      ∃ t' > t, x.Works name t t' ∧ if b then inBody t' m else here t' m)
    (hbody : ∀ t m σ, W.shows m σ → inBody t m →
      x.FollowsBody name W limit here inStep t d' (body σ))
    (hstep : ∀ t m σ, W.shows m σ → inStep t m →
      x.Follows name W (some limit) (fun t m ↦ x.Enters name t (.state head) m) t d' (step σ))
    {n : Nat} (hn : n ≤ limit) (hm : W.shows m σ) (henters : x.Enters name t (.state head) m) :
    x.Follows name W (some n) here t d' (Store.rounds goesOn body step n σ) := by
  induction n generalizing t m σ with
  | zero => exact ⟨0, rfl, t, Nat.le_refl _, .refl t⟩
  | succ n ih =>
    obtain ⟨b, hgoes, t₁, hlt, hworks, hb⟩ := hhead t m σ hm henters
    rw [Store.rounds, hgoes]
    cases b with
    | false => exact ⟨t₁, m, hm, hworks, hb⟩
    | true =>
      have hbody := hbody t₁ m σ hm hb
      dsimp only
      cases hr : body σ with
      | none =>
        rw [hr] at hbody
        obtain ⟨t₂, hle, hworks₂⟩ := hbody
        exact ⟨n + 1, rfl, t₂, by omega, hworks.trans hworks₂⟩
      | some r =>
        obtain ⟨o, σ'⟩ := r
        rw [hr] at hbody
        have hagain (hnext : ∃ t' m', W.shows m' σ' ∧ x.Works name t₁ t' ∧ inStep t' m') :
            x.Follows name W (some (n + 1)) here t d'
              (Store.andThen (Store.rounds goesOn body step n) (step σ')) := by
          obtain ⟨t₂, m₂, hm₂, hworks₂, hinstep⟩ := hnext
          have hrest := ((hstep t₂ m₂ σ' hm₂ hinstep).mono (Nat.le_of_succ_le hn)).andThen
            (fun t₃ m₃ σ₃ _ hm₃ hs₃ ↦ ih (Nat.le_of_succ_le hn) hm₃ hs₃)
            (.refl d' (d'.looseExits + 0)) (.refl d')
          exact hrest.succ (hworks.trans hworks₂) (hlt.trans_le hworks₂.le)
        cases o with
        | broke =>
          obtain ⟨t₂, m₂, hm₂, hworks₂, hhere⟩ := hbody
          exact ⟨t₂, m₂, hm₂, hworks.trans hworks₂, hhere⟩
        | returned =>
          obtain ⟨t₂, m₂, hm₂, hworks₂, hreturned⟩ := hbody
          exact ⟨t₂, m₂, hm₂, hworks.trans hworks₂, hreturned⟩
        | normal => exact hagain hbody
        | continued => exact hagain hbody

theorem loopCondition_simple {condition : Option Expr} (hplain : d.Plain S)
    (hsimple : ∀ e ∈ condition, e.IsSimpleBeside S.calls) {c : Option HwExpr}
    (h : l.loopCondition expand condition d = .ok (c, d')) :
    (d' = d ∨ ∃ cost, d' = d.reserve cost) ∧ ∀ inputs (values : String → V) (σ : Store V),
      S.Sees values σ.values → σ.goesOn I S.toScope condition =
        some (c.all fun c ↦ I.truth (c.eval I inputs values)) := by
  obtain ⟨rfl, rfl, rfl⟩ | ⟨e, y, rfl, rfl, hy⟩ := Lowering.loopCondition_eq_ok h
  · exact ⟨.inl rfl, fun _ _ _ _ ↦ rfl⟩
  · obtain ⟨hreserve, hholds⟩ := Lowering.condition_simple (I := I) hplain (hsimple e rfl) hy
    exact ⟨.inr hreserve, hholds⟩

variable (Γ x name e) in
theorem follows_room {d₁ : Draft} (hroom : d₁ = d ∨ ∃ cost, d₁ = d.reserve cost)
    (ho : d.isClosed = false) : d.SameScope d₁ ∧ d₁.isClosed = false ∧
      ∀ ⦃L⦄, d.Proper Γ L → d₁.Proper Γ L ∧ d.Before L d₁ L ∧
        ∀ ⦃t m⦄, M.Realizes name e.code → d₁.KeptIn L e → x.Stands name t d m →
          ∃ t', x.Works name t t' ∧ x.Stands name t' d₁ m := by
  obtain rfl | ⟨cost, rfl⟩ := hroom
  · exact ⟨.refl, ho, fun L hd ↦ ⟨hd, .refl _ _, fun t m _ _ hs ↦ ⟨t, .refl t, hs⟩⟩⟩
  · refine ⟨d.sameScope_reserve cost, d.isClosed_reserve ho cost, fun L hd ↦ ?_⟩
    obtain ⟨hd₁, hbefore⟩ := hd.reserve ho cost
    exact ⟨hd₁, hbefore, fun t m hM he hs ↦ hs.reserve hM hd.valid he⟩

theorem loop (hM : M.Realizes name e.code) (hΓ : Γ.Sees l) (hexpand : expand.Sound Γ)
    {condition : Option Expr} {step : Option Stmt} {body : Stmt}
    (hcondition : ∀ e ∈ condition, e.IsSimpleBeside S.calls)
    (hgroup : ∀ s, s = body ∨ s ∈ step → Γ.program.CallsGrouped → s.Grouped l.program)
    (hids : (body.callIds ++ step.toList.flatMap Stmt.callIds).Nodup)
    (hbody : Refines l expand Γ W x name e (some limit) body (body.runIn I S.toScope E limit))
    (hstep : ∀ s ∈ step, Refines l expand Γ W x name e (some limit) s
      (s.runIn I S.toScope E limit))
    (p : Lowering.LoopParts l expand condition step body d d') (ho : d.isClosed = false)
    (hplain : d.Plain S) (hlacks : d.Lacks (body.callIds ++ step.toList.flatMap Stmt.callIds)) :
    d.Proceeds S (body.callIds ++ step.toList.flatMap Stmt.callIds) d' ∧
    ∀ ⦃L : Multiset Nat⦄ ⦃t : Nat⦄ ⦃m : Memory V⦄ ⦃σ : Store V⦄, d.Proper Γ L → Γ.Covers d' →
      d'.KeptIn L e → x.Stands name t d m → W.shows m σ →
      x.Follows name W (some limit) (fun t m ↦ x.Stands name t d' m) t d'
        (Store.rounds (Store.goesOn I S.toScope condition) (body.runIn I S.toScope E limit)
          (Stmt.runInOption I S.toScope E limit step) limit σ) := by
  obtain ⟨c, d₁, d₂, exits, loops, again, d₃, h₁, h₂, hloops, h₃, hd'⟩ := p
  change l.stmt expand body (d₁.beginBody "loop: body") = .ok d₂ at h₂
  change l.stepStmt expand step _ (d₂.endBody loops) = .ok (again, d₃) at h₃
  have hleft := List.subset_append_left body.callIds (step.toList.flatMap Stmt.callIds)
  have hright := List.subset_append_right body.callIds (step.toList.flatMap Stmt.callIds)
  have hapart : ∀ id ∈ body.callIds, id ∉ step.toList.flatMap Stmt.callIds :=
    fun id hid hid' ↦ (List.nodup_append.1 hids).2.2 id hid id hid' rfl
  have ho₀ := Draft.isClosed_openState ho "loop: head"
  have hplain₀ := hplain.of_sameScope (d.sameScope_openState "loop: head")
  obtain ⟨hroom, hgoes⟩ := loopCondition_simple (I := I) hplain₀ hcondition h₁
  obtain ⟨hscope₁, ho₁, hroom⟩ := follows_room Γ x name e hroom ho₀
  have hproceeds₁ : d.Proceeds S [] (d₁.beginBody "loop: body") :=
    (Draft.Proceeds.of_sameScope hplain ((d.sameScope_openState "loop: head").trans hscope₁)).trans
      (.of_eq (hplain₀.of_sameScope hscope₁) rfl rfl rfl rfl) (List.nil_subset _)
  obtain ⟨hproceeds₂, hfollows₂⟩ := hbody h₂ rfl hproceeds₁.plain
    (hproceeds₁.lacks_of_nil (hlacks.mono hleft))
  obtain ⟨B, C, R, he₂⟩ := Lowering.evolves_stmt hΓ hexpand body (hgroup body (.inl rfl)) h₂
  have hinner : d₂.loops = ⟨B, C⟩ :: d₁.loops := (Draft.Grows.innerLoop
    (d := (d₁.addState "loop: body").enter d₁.nextState) he₂.toGrows).2
  obtain ⟨rfl, rfl⟩ := List.cons.inj (hloops.symm.trans hinner)
  have hended : d₂.Proceeds S [] (d₂.endBody d₁.loops) := .of_eq hproceeds₂.plain rfl rfl rfl rfl
  obtain ⟨hproceeds₃, ⟨B', C', R', hgrows₃⟩, hfollows₃⟩ := leadsBack_step hM hΓ hexpand
    (fun s hs ↦ hgroup s (.inr hs)) hstep h₃ hended.plain
    (hended.lacks_of_nil ((hproceeds₁.trans hproceeds₂ (List.nil_subset _)).lacks
      (hlacks.mono hright) hapart))
  -- The loop ends where the exits of the body and of the step are linked and its head is left.
  have hexit : d' = (d₃.suspended.linkAll (d₂.exit?.toList ++ C) again).join "loop: exit" d₁.current
      (Lowering.loopTransition c d₁.nextState d₃.suspended.nextState) B := by
    rw [hd', Draft.suspended_linkAll, Draft.join_suspended]
    rfl
  have hscope₃ : d₃.suspended.SameScope d' := by
    rw [hexit]
    exact (Draft.sameScope_linkAll _ _ _).trans (Draft.sameScope_join _ _ _ _ _)
  have hscope₄ : d₃.SameScope d' :=
    (show d₃.SameScope d₃.suspended from ⟨rfl, rfl, rfl, rfl, rfl, rfl⟩).trans hscope₃
  refine ⟨((hproceeds₁.trans hproceeds₂ (List.nil_subset _)).mono hleft).trans
      (((hended.trans hproceeds₃ (List.nil_subset _)).trans
        (.of_sameScope hproceeds₃.plain hscope₄) (List.Subset.refl _)).mono hright)
      (List.Subset.refl _),
    fun L t m σ hd hcovers he hs hm ↦ ?_⟩
  have hcovers₃ : Γ.Covers d₃.suspended := hcovers.mono (.of_sameScope hscope₃)
  have hcovers₂ : Γ.Covers (d₂.endBody d₁.loops) := (show Γ.Covers d₃ from hcovers₃).mono hgrows₃
  obtain ⟨hd₀, hbefore₀⟩ := hd.openState ho "loop: head"
  obtain ⟨hd₁, hbefore₁, hstands₁⟩ := hroom hd₀
  obtain ⟨hd₂, hbefore₂⟩ := Draft.Proper.evolve he₂ hcovers₂ (hd₁.beginBody "loop: body")
  obtain ⟨hbefore₃, hnodup₃, hran₃, hback⟩ := hfollows₃ (hd₂.endBody hinner) hcovers₃
  -- What is loose after the step: the exits of the body and the state that decides.
  have hloose : (↑(d₂.endBody d₁.loops).exit?.toList +
      (↑B + ↑C + (↑d₁.exit?.toList + L)) : Multiset Nat) =
        ↑(d₂.exit?.toList ++ C) + (↑B + ({d₁.current} + L)) := by
    have hopen : (d₂.endBody d₁.loops).exit? = d₂.exit? := rfl
    rw [hopen, Draft.exit?_of_open ho₁, Option.toList_some, Multiset.coe_singleton,
      ← Multiset.coe_add]
    abel
  rw [hloose] at hbefore₃ hnodup₃ hback
  have hends : d₃.suspended.EndsLoop c d₁.current d₁.nextState again (d₂.exit?.toList ++ C) B L
      d' := by
    refine ⟨rfl, hexit, ?_⟩
    have heq : (↑(d₂.exit?.toList ++ C) + (↑B + ({d₁.current} + (d₃.looseExits + L))) :
        Multiset Nat) = d₃.looseExits + (↑(d₂.exit?.toList ++ C) + (↑B + ({d₁.current} + L))) := by
      abel
    exact heq ▸ hnodup₃
  have he₃ := hends.before.keptIn he
  have he₂' := (Draft.before_endBody hinner _).keptIn (hbefore₃.keptIn he₃)
  have he₁ := (d₁.before_beginBody L "loop: body").keptIn (hbefore₂.keptIn he₂')
  have hsource : d₁.current ∈ (↑d₁.exit?.toList + L : Multiset Nat) := by
    simp [Draft.exit?_of_open ho₁]
  -- A state that is loose after the body is so until it is linked.
  have hkeep {i t : Nat} {m : Memory V} (hi : i ∈ (↑B + ↑C + (↑d₁.exit?.toList + L) : Multiset Nat))
      (hran : x.Ran name t d₂.code i m) : x.Ran name t d₃.suspended.code i m :=
    Execution.Ran.later (d := d₂.endBody d₁.loops) hran (Multiset.mem_add.2 (.inr hi)) hbefore₃
  obtain ⟨t₀, hworks₀, henters₀⟩ := hs.openState hM hd.valid (hbefore₁.keptIn he₁)
  refine .after hworks₀ (follows_rounds (fun t m ↦ x.Enters name t (.state d₁.nextState) m)
    (fun t m ↦ x.Enters name t (.state again) m) (fun t m σ hm henters ↦ ?_)
    (fun t m σ hm henters ↦ ?_) (fun t m σ hm henters ↦ ?_) (Nat.le_refl limit) hm henters₀)
  · obtain ⟨t₁, hworks₁, hs₁⟩ := hstands₁ hM he₁ (henters.stands_openState hd.valid ho)
    have hran₂ := (hs₁.ran.fork "loop: body").later (d := d₁.beginBody "loop: body")
      (Multiset.mem_add.2 (.inr hsource)) hbefore₂
    obtain ⟨t₂, hlt, hworks₂, hdecides⟩ := hends.decides hM he
      (hkeep (Multiset.mem_add.2 (.inr hsource)) hran₂)
    exact ⟨_, hgoes (x.inputs (t₂ - 1)) m.values σ (W.sees hm), t₂, hworks₁.le.trans_lt hlt,
      hworks₁.trans hworks₂, hdecides⟩
  · refine (hfollows₂ (hd₁.beginBody "loop: body") hcovers₂ he₂'
      (Execution.Stands.mk rfl (henters.stands_fork "loop: body").ran) hm).body hinner
      (fun i hi t m hran ↦ hends.stands_out hM he hi (hkeep (by simp [hi]) hran))
      (fun i hi t m hran ↦ hends.enters_again hM he (List.mem_append_right _ hi)
        (hkeep (by simp [hi]) hran))
      (fun t m hs₂ ↦ hends.enters_again hM he ?_ (hran₃ ⟨hs₂.opened, hs₂.ran⟩))
      (fun t m hreturned ↦ Execution.Returned.later (d := d₂.endBody d₁.loops) hreturned
        (hbefore₃.trans hends.before) (hgrows₃.trans (.of_sameScope hscope₄)))
    simp [Draft.exit?_of_open hs₂.opened, Draft.endBody]
  · exact (hback he₃ hm henters).join (fun t m h ↦ ⟨t, .refl t, h⟩) hends.before
      (.of_sameScope hscope₃)

theorem grouped_of_simple {c : Expr} (h : c.IsSimple) : c.Grouped l.program := by
  refine ⟨0, fun n hn hcall ↦ ?_⟩
  have hsimple := h n hn
  cases n with
  | call => exact hsimple.elim
  | _ => exact nomatch hcall

theorem forLoop (hM : M.Realizes name e.code) (hΓ : Γ.Sees l) (hexpand : expand.Sound Γ)
    {id : NodeId} {init : Option Stmt} {condition : Option Expr} {step : Option Stmt} {body : Stmt}
    (hgroup : Γ.program.CallsGrouped →
      (Stmt.forLoop id init condition step body).Grouped l.program)
    (hids : (Stmt.forLoop id init condition step body).callIds.Nodup)
    (hcondition : ∀ e ∈ condition, e.IsSimpleBeside S.calls)
    (hpart : ∀ s ∈ (Stmt.forLoop id init condition step body).children,
      Refines l expand Γ W x name e (some limit) s (s.runIn I S.toScope E limit)) :
    Refines l expand Γ W x name e (some limit) (.forLoop id init condition step body)
      (Stmt.runIn I S.toScope E limit (.forLoop id init condition step body)) := by
  intro d d' h ho hplain hlacks
  have hinitChild {s : Stmt} (hs : s ∈ init) :
      s ∈ (Stmt.forLoop id init condition step body).children := by
    simpa [Stmt.children] using .inl hs
  have hloopChild {s : Stmt} (hs : s = body ∨ s ∈ step) :
      s ∈ (Stmt.forLoop id init condition step body).children := by
    simpa [Stmt.children] using .inr hs
  have hcalls : (Stmt.forLoop id init condition step body).children.flatMap Stmt.callIds =
      init.toList.flatMap Stmt.callIds ++
        (body.callIds ++ step.toList.flatMap Stmt.callIds) := by
    simp [Stmt.children]
  have hsubset : (init.toList.flatMap Stmt.callIds ++
      (body.callIds ++ step.toList.flatMap Stmt.callIds)) ⊆
        (Stmt.forLoop id init condition step body).callIds := by
    rw [← hcalls, Stmt.callIds_eq]
    exact List.subset_append_right _ _
  have hnodup : (init.toList.flatMap Stmt.callIds ++
      (body.callIds ++ step.toList.flatMap Stmt.callIds)).Nodup := by
    rw [Stmt.callIds_eq, hcalls] at hids
    exact (List.nodup_append.1 hids).2.1
  obtain ⟨-, hnodupLoop, hapart⟩ := List.nodup_append.1 hnodup
  have hleft := List.Subset.trans (List.subset_append_left (init.toList.flatMap Stmt.callIds)
    (body.callIds ++ step.toList.flatMap Stmt.callIds)) hsubset
  have hright := List.Subset.trans (List.subset_append_right (init.toList.flatMap Stmt.callIds)
    (body.callIds ++ step.toList.flatMap Stmt.callIds)) hsubset
  obtain ⟨d₀, h₀, hloop⟩ := Lowering.stmt_forLoop h ho
  have hfirst : d.Proceeds S (init.toList.flatMap Stmt.callIds) d₀ ∧
      Lowering.StmtEvolves Γ d d₀ ∧ ∀ ⦃L t m σ⦄, d.Proper Γ L → Γ.Covers d₀ →
      d₀.KeptIn L e → x.Stands name t d m → W.shows m σ →
      x.Follows name W (some limit) (fun t m ↦ x.Stands name t d₀ m) t d₀
        (Stmt.runInOption I S.toScope E limit init σ) := by
    obtain ⟨rfl, rfl⟩ | ⟨s, rfl, h₀⟩ := Lowering.stmtOption_eq_ok h₀
    · refine ⟨.refl hplain, .refl Γ _, fun L t m σ _ _ _ hs hm ↦ ?_⟩
      rw [Stmt.runInOption]
      exact .of_normal hm hs
    · have hinit : (some s).toList.flatMap Stmt.callIds = s.callIds := by simp
      rw [hinit] at hleft ⊢
      obtain ⟨hproceeds₀, hfollows⟩ := hpart s (hinitChild rfl) h₀ ho hplain (hlacks.mono hleft)
      refine ⟨hproceeds₀, Lowering.evolves_stmt hΓ hexpand s
        (fun hp ↦ (hgroup hp).child (hinitChild rfl)) h₀, fun L t m σ hd hcovers he hs hm ↦ ?_⟩
      rw [Stmt.runInOption]
      exact hfollows hd hcovers he hs hm
  obtain ⟨hproceeds₀, ⟨B, C, R, he₀⟩, hfollows₀⟩ := hfirst
  obtain ⟨hclosed, rfl⟩ | ⟨ho₀, ⟨p⟩⟩ := hloop
  · refine ⟨hproceeds₀.mono hleft, fun L t m σ hd hcovers he hs hm ↦ ?_⟩
    rw [Stmt.runIn]
    refine (hfollows₀ hd hcovers he hs hm).andThen (fun t' m' _ _ _ hs' ↦ ?_)
      (.refl d' (d'.looseExits + 0)) (.refl d')
    exact absurd (hs'.opened.symm.trans hclosed) Bool.false_ne_true
  · obtain ⟨hproceeds', hfollows⟩ := loop hM hΓ hexpand hcondition
      (fun s hs hp ↦ (hgroup hp).child (hloopChild hs)) hnodupLoop
      (hpart body (hloopChild (.inl rfl))) (fun s hs ↦ hpart s (hloopChild (.inr hs))) p ho₀
      hproceeds₀.plain (hproceeds₀.lacks (hlacks.mono hright)
        fun id hid hid' ↦ hapart id hid id hid' rfl)
    obtain ⟨B', C', R', he'⟩ := Lowering.evolves_loop hΓ hexpand
      (fun e he _ ↦ grouped_of_simple (hcondition e he).simple)
      (fun s hs _ _ h ↦ Lowering.evolves_stmt hΓ hexpand s
        (fun hp ↦ (hgroup hp).child (hloopChild (.inr hs))) h)
      (fun h ↦ Lowering.evolves_stmt hΓ hexpand body
        (fun hp ↦ (hgroup hp).child (hloopChild (.inl rfl))) h) p ho₀
    refine ⟨(hproceeds₀.mono hleft).trans (hproceeds'.mono hright) (List.Subset.refl _),
      fun L t m σ hd hcovers he hs hm ↦ ?_⟩
    have hcovers₀ := hcovers.mono he'.toGrows
    obtain ⟨hd₀, -⟩ := Draft.Proper.evolve he₀ hcovers₀ hd
    obtain ⟨-, hbefore⟩ := Draft.Proper.evolve he' hcovers hd₀
    rw [Stmt.runIn]
    exact (hfollows₀ hd hcovers₀ (hbefore.keptIn he) hs hm).andThen
      (fun t' m' σ' _ hm' hs' ↦ hfollows hd₀ hcovers he hs' hm') hbefore he'.toGrows

end Refines

/-- A statement whose values are of the given kind, for the lowering of a member at a place. -/
structure Stmt.Fits (l : Lowering) (Γ : Interface) (S : MemberPlace) (values : Expr → Prop)
    (isBounded : Prop) (s : Stmt) : Prop where
  uses : s.Uses values (Expr.IsSimpleBeside S.calls)
  types : S.Types s
  /-- There are no loops where rounds are not bounded. -/
  loops : ∀ t ∈ s.nodes, t.isLoop → isBounded
  grouped : Γ.program.CallsGrouped → s.Grouped l.program
  nodup : s.callIds.Nodup

namespace Stmt.Fits

variable {l : Lowering} {Γ : Interface} {S : MemberPlace} {values : Expr → Prop} {isBounded : Prop}
  {s c : Stmt}

theorem child (h : s.Fits l Γ S values isBounded) (hc : c ∈ s.children) :
    c.Fits l Γ S values isBounded where
  uses t ht := h.uses t (nodes_subset_of_mem_children hc ht)
  types := h.types.child hc
  loops t ht := h.loops t (nodes_subset_of_mem_children hc ht)
  grouped hp := (h.grouped hp).child hc
  nodup := by
    have hn := h.nodup
    rw [callIds_eq] at hn
    exact (List.nodup_flatMap.1 (List.nodup_append.1 hn).2.1).1 c hc

theorem callIds_whileLoop (id : NodeId) (condition : Expr) (body : Stmt) :
    (Stmt.whileLoop id condition body).callIds =
      (Stmt.forLoop id none (some condition) none body).callIds := by
  rw [callIds_eq, callIds_eq]
  rfl

/-- A `while` loop is a `for` loop with a condition only. -/
theorem forLoop {id : NodeId} {condition : Expr} {body : Stmt}
    (h : (Stmt.whileLoop id condition body).Fits l Γ S values isBounded) :
    (Stmt.forLoop id none (some condition) none body).Fits l Γ S values isBounded := by
  have hnodes : (Stmt.forLoop id none (some condition) none body).nodes =
      .forLoop id none (some condition) none body :: body.nodes := by
    simp [nodes, nodesOption]
  have hbody := h.child (c := body) (by simp [children])
  refine ⟨?_, fun p hp ↦ h.types p ?_, ?_, fun hp ↦ ?_, ?_⟩
  · rw [Stmt.Uses, hnodes, List.forall_mem_cons]
    refine ⟨fun e he ↦ ?_, hbody.uses⟩
    obtain rfl := Option.some.inj he
    exact h.uses _ (mem_nodes_self _)
  · simpa [locals, nodes, nodesOption] using hp
  · rw [hnodes, List.forall_mem_cons]
    exact ⟨fun _ ↦ h.loops _ (mem_nodes_self _) rfl, hbody.loops⟩
  · rw [Stmt.Grouped, hnodes, List.forall_mem_cons]
    exact ⟨h.grouped hp (.whileLoop id condition body) (mem_nodes_self _), hbody.grouped hp⟩
  · rw [← callIds_whileLoop]
    exact h.nodup

end Stmt.Fits

/-- The states that a statement is lowered to do what the statement does, if its values mean what
they are lowered to. The machine is busy for as many cycles as a loop makes rounds. -/
theorem Lowering.refines_stmt {V ι : Type} {I : Interpretation V} {M : Machine ι} {l : Lowering}
    {expand : Expansion} {Γ : Interface} {S : MemberPlace} {W : View I S} (x : Execution I M)
    {name : DraftTarget → ι} {e : Draft} {cycles : Option Nat} (limit : Nat) {E : Meaning V}
    (hM : M.Realizes name e.code) (hΓ : Γ.Sees l) (hexpand : expand.Sound Γ) {values : Expr → Prop}
    (hvalues : ∀ source, values source → Delivered l expand Γ W x name e E source) {isBounded : Prop}
    (hcycles : isBounded → cycles = some limit) (s : Stmt) (h : s.Fits l Γ S values isBounded) :
    Refines l expand Γ W x name e cycles s (s.runIn I S.toScope E limit) := by
  induction s using Stmt.induction with
  | declare id target type init =>
    obtain ⟨hscalar, hinit⟩ := h.uses _ (Stmt.mem_nodes_self _)
    exact .declare hM hscalar h.types fun source hs ↦ (hvalues source (hinit source hs)).delivers
  | assign id target value =>
    obtain ⟨-, hvalue⟩ := h.uses _ (Stmt.mem_nodes_self _)
    exact .assign hM (hvalues value hvalue).delivers
  | branch id condition thenBranch elseBranch iht ihe =>
    refine .branch hM hΓ hexpand h.grouped h.nodup (h.uses _ (Stmt.mem_nodes_self _))
      (iht (h.child (by simp [Stmt.children]))) fun s hs ↦ ?_
    exact ihe s hs (h.child (by simpa [Stmt.children] using .inr hs))
  | whileLoop id condition body ih =>
    obtain rfl := hcycles (h.loops _ (Stmt.mem_nodes_self _) rfl)
    have hfor : Refines l expand Γ W x name e (some limit)
        (.forLoop id none (some condition) none body)
        (Stmt.runIn I S.toScope E limit (.forLoop id none (some condition) none body)) := by
      refine .forLoop hM hΓ hexpand h.forLoop.grouped h.forLoop.nodup
        (h.forLoop.uses _ (Stmt.mem_nodes_self _)) fun s hs ↦ ?_
      obtain rfl : s = body := by simpa [Stmt.children] using hs
      exact ih (h.child (by simp [Stmt.children]))
    intro d d' hd ho hplain hlacks
    rw [Lowering.stmt_whileLoop] at hd
    rw [Stmt.Fits.callIds_whileLoop] at hlacks ⊢
    have hrun (σ : Store V) : Stmt.runIn I S.toScope E limit (.whileLoop id condition body) σ =
        Stmt.runIn I S.toScope E limit (.forLoop id none (some condition) none body) σ := by
      rw [Stmt.runIn, Stmt.runIn, Stmt.runInOption, Store.andThen]
      congr 1
    simp only [hrun]
    exact hfor hd ho hplain hlacks
  | forLoop id init condition step body ihi ihs ihb =>
    obtain rfl := hcycles (h.loops _ (Stmt.mem_nodes_self _) rfl)
    refine .forLoop hM hΓ hexpand h.grouped h.nodup (h.uses _ (Stmt.mem_nodes_self _)) fun s hs ↦ ?_
    have hfits := h.child hs
    rcases List.mem_append.1 hs with hs | hs
    · exact ihi s (Option.mem_toList.1 hs) hfits
    · rcases List.mem_cons.1 hs with rfl | hs
      · exact ihb hfits
      · exact ihs s (Option.mem_toList.1 hs) hfits
  | ret id value =>
    exact .ret hM fun source hs ↦ hvalues source (h.uses _ (Stmt.mem_nodes_self _) source hs)
  | eval id source =>
    obtain ⟨hcall, hvalue⟩ := h.uses _ (Stmt.mem_nodes_self _)
    exact .eval hcall (hvalues source hvalue).performs
  | block id stmts ih =>
    intro d d' hd ho hplain hlacks
    rw [Lowering.stmt, if_neg (by simp [ho])] at hd
    have hcalls : (Stmt.block id stmts).callIds = stmts.flatMap Stmt.callIds := by
      rw [Stmt.callIds_eq]
      rfl
    have hnodup := h.nodup
    rw [hcalls] at hlacks hnodup ⊢
    have hfits (s) (hs : s ∈ stmts) := h.child (c := s) hs
    simp only [Stmt.runIn]
    exact Refines.stmtList hΓ hexpand (fun s hs ↦ (hfits s hs).grouped)
      (fun s hs ↦ ih s hs (hfits s hs)) hnodup hd ho hplain hlacks
  | breakLoop id => exact .breakLoop
  | continueLoop id => exact .continueLoop
  | store | parallel => exact (h.uses _ (Stmt.mem_nodes_self _)).elim

end Fabric
