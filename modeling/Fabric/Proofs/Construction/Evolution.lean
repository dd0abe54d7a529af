import Fabric.Proofs.Construction.Draft
import Fabric.Proofs.Text.Separation
import Mathlib.Algebra.Order.Group.Multiset
import Mathlib.Tactic.Abel

namespace Fabric

variable (Γ : Interface)

def Binding.Typed : Binding → Prop
  | .variable name type => Γ.Declares name type
  | .constant value type => value.HasType Γ type

def Lowered.Typed (v : Lowered) : Prop := v.expr.HasType Γ v.type

def Frame.HasResult (f : Frame) (type : HwType) : Prop :=
  match f.returnVariable with
  | some name => Γ.Declares name type
  | none => Γ.returnType = some type

structure Frame.Typed (f : Frame) : Prop where
  locals : ∀ x ∈ f.locals, x.2.Typed Γ
  result : ∀ type, f.returnType = some type → f.HasResult Γ type

structure Draft.Scoped (d : Draft) : Prop where
  frame : d.frame.Typed Γ
  results : ∀ id v, (id, some v) ∈ d.results → v.Typed Γ

def Interface.Covers (d : Draft) : Prop := d.declarations ⊆ Γ.declarations

structure Interface.Sees (l : Lowering) : Prop where
  program : Γ.program = l.program
  invocations : Γ.invocations =
    l.member.invocations.entries.map fun (target, slots) ↦ ⟨target, slots⟩

def LoopExits.add (x : LoopExits) (breaks continues : List Nat) : LoopExits :=
  ⟨x.breaks ++ breaks, x.continues ++ continues⟩

def Draft.nextSlot (d : Draft) (key : NodeId × String) : UInt32 :=
  (d.slots.lookup key).getD 0

/-- The change of what is in scope from one draft to another. `B` and `C` are the new breaks and
continues of the innermost loop, `R` the new returns. -/
structure Draft.Grows (B C R : List Nat) (d d' : Draft) : Prop where
  declared : d.declarations ⊆ d'.declarations
  slots : ∀ key, d.nextSlot key ≤ d'.nextSlot key
  loops : d'.loops = d.loops.modifyHead (·.add B C)
  exits : d.loops = [] → B = [] ∧ C = []
  frame : d'.frame = { d.frame with
    locals := d'.frame.locals, returns := d.frame.returns ++ R }
  returns : d.frame.isExpanded = false → R = []

namespace Draft.Grows

variable {B B' C C' R R' : List Nat} {d d' d'' : Draft}

theorem of_eq (hd : d.declarations ⊆ d'.declarations)
    (hs : ∀ key, d.nextSlot key ≤ d'.nextSlot key) (hl : d'.loops = d.loops)
    (hf : d'.frame = { d.frame with locals := d'.frame.locals }) : Grows [] [] [] d d' where
  declared := hd
  slots := hs
  loops := by
    rw [hl]
    cases d.loops with
    | nil => rfl
    | cons x rest => simp [LoopExits.add]
  exits _ := ⟨rfl, rfl⟩
  frame := by rw [List.append_nil, hf]
  returns _ := rfl

theorem of_sameScope (h : d.SameScope d') : Grows [] [] [] d d' := by
  refine of_eq ?_ (fun key ↦ ?_) h.loops (by rw [h.frame])
  · rw [h.declarations]
    exact List.Subset.refl _
  · unfold nextSlot
    rw [h.slots]
    exact UInt32.le_refl _

theorem refl (d : Draft) : Grows [] [] [] d d := of_sameScope .refl

theorem trans (h : Grows B C R d d') (h' : Grows B' C' R' d' d'') :
    Grows (B ++ B') (C ++ C') (R ++ R') d d'' where
  declared _ hx := h'.declared (h.declared hx)
  slots key := UInt32.le_trans (h.slots key) (h'.slots key)
  loops := by
    rw [h'.loops, h.loops]
    cases d.loops with
    | nil => rfl
    | cons x rest => simp [LoopExits.add]
  exits hl := by
    obtain ⟨rfl, rfl⟩ := h.exits hl
    have hl' : d'.loops = [] := by rw [h.loops, hl]; rfl
    obtain ⟨rfl, rfl⟩ := h'.exits hl'
    exact ⟨rfl, rfl⟩
  frame := by
    rw [h'.frame, h.frame]
    simp
  returns hx := by
    have hx' : d'.frame.isExpanded = false := by rw [h.frame]; exact hx
    rw [h.returns hx, h'.returns hx', List.append_nil]

end Draft.Grows

/-- The change from one draft to another: the code changes by moves. -/
structure Evolves (P : Prop) (B C R : List Nat) (d d' : Draft) (Q : Prop) : Prop extends
    Draft.Grows B C R d d' where
  run : Γ.Covers d' → P → Q ∧ ∀ (L R₀ : Multiset Nat) (E : Set Nat), (d.site L R₀ E).Good →
    ∃ E', Moves Γ (d.site L R₀ E) (d'.site (↑B + ↑C + L) (↑R + R₀) E')

abbrev Evolves.Plainly (P : Prop) (d d' : Draft) (Q : Prop) : Prop :=
  Evolves Γ P [] [] [] d d' Q

theorem Interface.Covers.mono {Γ : Interface} {B C R : List Nat} {d d' : Draft}
    (h : Γ.Covers d') (hg : d.Grows B C R d') : Γ.Covers d :=
  fun _ hx ↦ h (hg.declared hx)

namespace Evolves

variable {Γ} {P P' Q Q' S : Prop} {B B' C C' R R' : List Nat} {d d' d'' : Draft}

theorem refl (d : Draft) (h : P → Q) : Plainly Γ P d d Q where
  toGrows := .refl d
  run _ hP := ⟨h hP, fun L R E _ ↦ ⟨E, by simp [Relation.ReflTransGen.refl]⟩⟩

/-- Two changes one after the other. What holds before the first one still holds after it. -/
theorem seq (h : Evolves Γ P B C R d d' Q) (h' : Evolves Γ P' B' C' R' d' d'' Q')
    (hmid : P → Q → P') (hpost : P → Q → Q' → S) :
    Evolves Γ P (B ++ B') (C ++ C') (R ++ R') d d'' S where
  toGrows := h.toGrows.trans h'.toGrows
  run hc hP := by
    obtain ⟨hQ, hm⟩ := h.run (hc.mono h'.toGrows) hP
    obtain ⟨hQ', hm'⟩ := h'.run hc (hmid hP hQ)
    refine ⟨hpost hP hQ hQ', fun L R₀ E hg ↦ ?_⟩
    obtain ⟨E₁, h₁⟩ := hm L R₀ E hg
    obtain ⟨E₂, h₂⟩ := hm' _ _ E₁ (h₁.good hg)
    refine ⟨E₂, ?_⟩
    have hL : (↑(B ++ B') + ↑(C ++ C') + L : Multiset Nat) = ↑B' + ↑C' + (↑B + ↑C + L) := by
      simp only [← Multiset.coe_add]
      abel
    have hR : (↑(R ++ R') + R₀ : Multiset Nat) = ↑R' + (↑R + R₀) := by
      simp only [← Multiset.coe_add]
      abel
    rw [hL, hR]
    exact h₁.trans h₂

theorem conseq (h : Evolves Γ P B C R d d' Q) (hP : P' → P) (hQ : P' → Q → Q') :
    Evolves Γ P' B C R d d' Q' :=
  { h with
    run := fun hc hP' ↦
      have hr := h.run hc (hP hP')
      ⟨hQ hP' hr.1, hr.2⟩ }

theorem ofScope (hd : d.declarations ⊆ d'.declarations) (hs : ∀ key, d.nextSlot key ≤ d'.nextSlot key)
    (hl : d'.loops = d.loops) (hf : d'.frame = { d.frame with locals := d'.frame.locals })
    (hsite : ∀ L R E, d'.site L R E = d.site L R E) (hQ : Γ.Covers d' → P → Q) :
    Plainly Γ P d d' Q where
  toGrows := .of_eq hd hs hl hf
  run hc hP := by
    refine ⟨hQ hc hP, fun L R E _ ↦ ⟨E, ?_⟩⟩
    rw [hsite]
    simp [Relation.ReflTransGen.refl]

theorem ofMoves (hs : d.SameScope d')
    (hm : Γ.Covers d → P → ∀ L R E, (d.site L R E).Good →
      ∃ E', Moves Γ (d.site L R E) (d'.site L R E'))
    (hQ : P → Q) : Plainly Γ P d d' Q where
  toGrows := .of_sameScope hs
  run hc hP := by
    refine ⟨hQ hP, fun L R E hg ↦ ?_⟩
    simpa using hm (hc.mono (.of_sameScope hs)) hP L R E hg

/-- A change that starts in a new state. The state that was open before is left loose. -/
theorem forked {label : String}
    (h : Evolves Γ P B C R ((d.addState label).enter d.nextState) d' Q) (hc : Γ.Covers d') (hP : P)
    (L R₀ : Multiset Nat) (E : Set Nat) (hg : (d.site L R₀ E).Good) :
    ∃ E', d.nextState ∈ E' ∧ E ⊆ E' ∧ Moves Γ (d.site L R₀ E)
      (d'.site (↑B + ↑C + (↑d.exit?.toList + L)) (↑R + R₀) E') := by
  have hfork : Moves Γ (d.site L R₀ E) (((d.addState label).enter d.nextState).site
      (↑d.exit?.toList + L) R₀ (insert d.nextState E)) := by
    have hm := (Moves.suspend (Γ := Γ) (L := L) (R := R₀) (E := E) d).trans Moves.fork
    unfold Draft.site at hm ⊢
    rw [Draft.code_enter, Draft.code_addState]
    rw [d.length_code] at hm ⊢
    exact hm
  obtain ⟨E', hm⟩ := (h.run hc hP).2 _ _ _ (hfork.good hg)
  exact ⟨E', hm.entries (Set.mem_insert _ _), fun _ hx ↦ hm.entries (Set.mem_insert_of_mem _ hx),
    hfork.trans hm⟩

end Evolves

/-- Control comes together in a new state: one state branches, and others lead there. -/
theorem Draft.moves_join {Γ : Interface} (d : Draft) (label : String) (source : Nat)
    (exits : List Nat) {t : Transition DraftTarget} {L R : Multiset Nat} {E : Set Nat}
    (ht : t.Typed Γ) (hE : t.Into (insert d.nextState E)) :
    Moves Γ ⟨d.code, d.current, true, source ::ₘ (↑exits + L), R, E⟩
      (((((d.addState label).setTransition source t).linkAll exits d.nextState).enter
        d.nextState).site L R (insert d.nextState E)) := by
  have hfork : Moves Γ ⟨d.code, d.current, true, source ::ₘ (↑exits + L), R, E⟩ _ := Moves.fork
  have hall : Moves Γ ⟨Code.redirect (d.code ++ [Block.fresh d.code.length]) source t, d.nextState,
      false, ↑exits + L, R, insert d.nextState E⟩ _ := Moves.settleAll (Set.mem_insert _ _) exits _
  unfold Draft.site
  rw [code_enter, code_linkAll, code_setTransition, code_addState]
  rw [d.length_code] at hfork hall ⊢
  exact (hfork.trans (Moves.settle ht hE)).trans hall

namespace Draft

variable {Γ} {d d' : Draft}

theorem SameScope.scoped (h : SameScope d d') (hs : d.Scoped Γ) : d'.Scoped Γ := by
  refine ⟨?_, ?_⟩
  · rw [h.frame]
    exact hs.frame
  · rw [h.results]
    exact hs.results

theorem evolves_reserve (ho : d.isClosed = false) (cost : Binary64) :
    Evolves.Plainly Γ (d.Scoped Γ) d (d.reserve cost) ((d.reserve cost).Scoped Γ) :=
  .ofMoves (d.sameScope_reserve cost) (fun _ _ _ _ _ _ ↦ d.moves_reserve ho cost)
    (d.sameScope_reserve cost).scoped

theorem isClosed_openState (ho : d.isClosed = false) (label : String) :
    (d.openState label).isClosed = false := by
  rcases d.site_openState label with ⟨_, _, _, h⟩ | h
  · exact (congrArg Site.isClosed (h 0 0 ∅)).trans ho
  · exact (congrArg Site.isClosed (h 0 0 ∅)).trans (d.isClosed_advance label)

theorem moves_openState {L R : Multiset Nat} {E : Set Nat} (ho : d.isClosed = false)
    (label : String) : ∃ E', Moves Γ (d.site L R E) ((d.openState label).site L R E') := by
  rcases d.site_openState label with ⟨_, _, _, h⟩ | h
  · exact ⟨E, h L R E ▸ .refl⟩
  · obtain ⟨E', hm⟩ := d.moves_advance (Γ := Γ) (L := L) (R := R) (E := E) ho label
    exact ⟨E', h L R E' ▸ hm⟩

theorem evolves_push (ho : d.isClosed = false) {s : HwStmt} (hp : s.IsPlain) :
    Evolves.Plainly Γ (d.Scoped Γ ∧ s.Typed Γ) d (d.push s) ((d.push s).Scoped Γ) := by
  have hs : SameScope d (d.push s) := ⟨rfl, rfl, rfl, rfl, rfl, rfl⟩
  exact .ofMoves hs (fun _ h L R E _ ↦ ⟨E, moves_push ho h.2 hp⟩) fun h ↦ hs.scoped h.1

theorem isClosed_emit (ho : d.isClosed = false) (s : HwStmt) (cost : Binary64) :
    (d.emit s cost).isClosed = false :=
  d.isClosed_reserve ho cost

theorem evolves_emit (ho : d.isClosed = false) {s : HwStmt} (hp : s.IsPlain) (cost : Binary64) :
    Evolves.Plainly Γ (d.Scoped Γ ∧ s.Typed Γ) d (d.emit s cost) ((d.emit s cost).Scoped Γ) :=
  ((evolves_reserve ho cost).conseq And.left fun _ h ↦ h).seq
    (evolves_push (d.isClosed_reserve ho cost) hp) (fun h h' ↦ ⟨h', h.2⟩) fun _ _ h ↦ h

theorem evolves_addDeclaration (name : String) (type : HwType) (comment : String) :
    Evolves.Plainly Γ (d.Scoped Γ) d (d.addDeclaration name type comment)
      ((d.addDeclaration name type comment).Scoped Γ ∧ Γ.Declares name type) := by
  refine .ofScope (List.subset_append_left _ _) (fun _ ↦ UInt32.le_refl _) rfl rfl
    (fun _ _ _ ↦ rfl) fun hc hs ↦ ⟨⟨hs.frame, hs.results⟩, ⟨name, type, some comment⟩, hc ?_, rfl, rfl⟩
  exact List.mem_append_right _ (List.mem_singleton_self _)

theorem evolves_temporary (type : HwType) (comment : String) :
    Evolves.Plainly Γ (d.Scoped Γ) d (d.temporary type comment).2
      ((d.temporary type comment).2.Scoped Γ ∧ Γ.Declares (d.temporary type comment).1 type) := by
  have h : Evolves.Plainly Γ (d.Scoped Γ) d _ _ :=
    d.evolves_addDeclaration ("temp." ++ toString d.temporaries) type comment
  refine .ofScope h.declared h.slots rfl rfl (fun _ _ _ ↦ rfl) fun hc hs ↦ ?_
  obtain ⟨hs', hd⟩ := (h.run hc hs).1
  exact ⟨⟨hs'.frame, hs'.results⟩, hd⟩

theorem variant_injective (base : String) : Function.Injective (variant base) := by
  have hne (n : Nat) : base ≠ base ++ "." ++ toString (n + 1) := by
    intro h
    have hlen := congrArg String.length h
    have hdot : ".".length = 1 := rfl
    rw [String.length_append, String.length_append, hdot] at hlen
    omega
  intro m n h
  match m, n with
  | 0, 0 => rfl
  | 0, n + 1 => exact absurd h (hne n)
  | m + 1, 0 => exact absurd h.symm (hne m)
  | m + 1, n + 1 => exact Text.toString_injective ((String.append_right_inj _).1 h)

theorem declaredType?_eq_some {name : String} {type : HwType}
    (h : d.declaredType? name = some type) :
    ∃ e ∈ d.declarations, e.name = name ∧ e.type = type := by
  obtain ⟨e, he, rfl⟩ := Option.map_eq_some_iff.1 h
  refine ⟨e, List.mem_reverse.1 (List.mem_of_find?_eq_some he), ?_, rfl⟩
  simpa using List.find?_some he

theorem mem_of_not_admits {name : String} {type : HwType} (h : d.admits name type = false) :
    name ∈ d.declarations.map Declaration.name := by
  unfold admits at h
  split at h
  · exact absurd h (by simp)
  next declared hd =>
    obtain ⟨e, he, rfl, -⟩ := declaredType?_eq_some hd
    exact List.mem_map_of_mem he

/-- Some variant of a name can be used: there are more of them than declarations. -/
theorem admits_firstVariant (base : String) (type : HwType) (tries n : Nat)
    (hn : n + tries = d.declarations.length)
    (hno : ∀ k < n, d.admits (variant base k) type = false) :
    d.admits (d.firstVariant base type tries n) type := by
  induction tries generalizing n with
  | zero =>
    unfold firstVariant
    by_contra hlast
    rw [Bool.not_eq_true] at hlast
    have hsub : (List.range (n + 1)).map (variant base) ⊆ d.declarations.map Declaration.name := by
      intro x hx
      obtain ⟨k, hk, rfl⟩ := List.mem_map.1 hx
      rcases Nat.lt_succ_iff_lt_or_eq.1 (List.mem_range.1 hk) with hk | rfl
      · exact mem_of_not_admits (hno k hk)
      · exact mem_of_not_admits hlast
    have hnodup := List.nodup_range (n := n + 1) |>.map (variant_injective base)
    have hlen := (List.subperm_of_subset hnodup hsub).length_le
    simp only [List.length_map, List.length_range] at hlen
    omega
  | succ tries ih =>
    unfold firstVariant
    split
    next h => exact h
    next h =>
      refine ih (n + 1) (by omega) fun k hk ↦ ?_
      rcases Nat.lt_succ_iff_lt_or_eq.1 hk with hk | rfl
      · exact hno k hk
      · simpa using h

theorem evolves_declare (name : String) (type : HwType) (comment : String) :
    Evolves.Plainly Γ (d.Scoped Γ) d (d.declare name type comment).2
      ((d.declare name type comment).2.Scoped Γ ∧
        Γ.Declares (d.declare name type comment).1 type) := by
  have hadmits := d.admits_firstVariant (d.frame.qualifier ++ name) type _ 0 (Nat.zero_add _) nofun
  unfold declare
  dsimp only
  split
  next => exact d.evolves_addDeclaration _ type comment
  next declared hd =>
    simp only [admits, hd, decide_eq_true_eq] at hadmits
    obtain ⟨e, he, hname, htype⟩ := declaredType?_eq_some hd
    exact .ofScope (List.Subset.refl _) (fun _ ↦ UInt32.le_refl _) rfl rfl (fun _ _ _ ↦ rfl)
      fun hc hs ↦ ⟨hs, e, hc he, hname, htype.trans hadmits⟩

theorem evolves_bind (name : String) (b : Binding) :
    Evolves.Plainly Γ (d.Scoped Γ ∧ b.Typed Γ) d (d.bind name b) ((d.bind name b).Scoped Γ) := by
  refine .ofScope (List.Subset.refl _) (fun _ ↦ UInt32.le_refl _) rfl rfl (fun _ _ _ ↦ rfl)
    fun _ ⟨hs, hb⟩ ↦ ⟨⟨fun x hx ↦ ?_, hs.frame.result⟩, hs.results⟩
  rcases List.mem_cons.1 hx with rfl | hx
  · exact hb
  · exact hs.frame.locals x hx

theorem evolves_setResult (id : NodeId) (value : Option Lowered) :
    Evolves.Plainly Γ (d.Scoped Γ ∧ ∀ v, value = some v → v.Typed Γ) d (d.setResult id value)
      ((d.setResult id value).Scoped Γ) := by
  refine .ofScope (List.Subset.refl _) (fun _ ↦ UInt32.le_refl _) rfl rfl (fun _ _ _ ↦ rfl)
    fun _ ⟨hs, hv⟩ ↦ ⟨hs.frame, fun id' v hmem ↦ ?_⟩
  rcases List.mem_cons.1 hmem with heq | hmem
  · exact hv v (Prod.mk.inj heq).2.symm
  · exact hs.results id' v hmem

end Draft

end Fabric
