import Fabric.Proofs.Construction.Carry
import Fabric.Proofs.Source.Residual

namespace Fabric

variable {V : Type}

def tempName (k : Nat) : String := "temp." ++ toString k

theorem tempName_inj {k k' : Nat} (h : tempName k = tempName k') : k = k' := by
  have hlists := congrArg String.toList h
  unfold tempName at hlists
  rw [String.toList_append, String.toList_append] at hlists
  have hdigits := congrArg (Nat.ofDigitChars 10 · 0) (List.append_cancel_left hlists)
  simpa [Nat.toString_eq_ofList_toDigits] using hdigits

theorem ne_tempName {name : String} (h : '.' ∉ name.toList) (k : Nat) : name ≠ tempName k := by
  rintro rfl
  refine h ?_
  unfold tempName
  rw [String.toList_append]
  exact List.mem_append_left _ (by decide)

def AgreeBelow (n : Nat) (values values' : String → V) : Prop :=
  ∀ x, (∀ k ≥ n, x ≠ tempName k) → values' x = values x

namespace AgreeBelow

variable {n n' : Nat} {values values' values'' : String → V}

theorem refl (n : Nat) (values : String → V) : AgreeBelow n values values := fun _ _ ↦ rfl

theorem trans (h : AgreeBelow n values values') (hle : n ≤ n')
    (h' : AgreeBelow n' values' values'') : AgreeBelow n values values'' := fun x hx ↦
  (h' x fun k hk ↦ hx k (hle.trans hk)).trans (h x hx)

theorem mono (h : AgreeBelow n' values values') (hle : n ≤ n') : AgreeBelow n values values' :=
  (refl n values).trans hle h

theorem set (m : Memory V) {k : Nat} (hk : n ≤ k) (value : V) :
    AgreeBelow n m.values (m.setVariable (tempName k) value).values :=
  fun _ hx ↦ if_neg (hx k hk)

end AgreeBelow

section

variable (I : Interpretation V)

/-- An expression has a value for good: it depends on no signal and on no temporary from a number
on. -/
def HwExpr.Yields (n : Nat) (values : String → V) (e : HwExpr) (b : Bool) : Prop :=
  ∀ inputs values', AgreeBelow n values values' → e.eval I inputs values' = I.bool b

variable {I} {n n' : Nat} {values values' : String → V} {b : Bool}

namespace HwExpr.Yields

theorem eval {e : HwExpr} (h : e.Yields I n values b) (inputs : SignalRef → V) :
    e.eval I inputs values = I.bool b :=
  h inputs values (.refl n values)

theorem mono {e : HwExpr} (h : e.Yields I n values b) (hle : n ≤ n')
    (hagree : AgreeBelow n values values') : e.Yields I n' values' b := fun inputs _ hagree' ↦
  h inputs _ (hagree.trans hle hagree')

theorem ofVariable {name : String} (hne : ∀ k ≥ n, name ≠ tempName k)
    (h : values name = I.bool b) : (HwExpr.variable name).Yields I n values b := fun _ _ hagree ↦
  (hagree name hne).trans h

theorem temporary {k : Nat} (hk : k < n) (h : values (tempName k) = I.bool b) :
    (HwExpr.variable (tempName k)).Yields I n values b := by
  refine ofVariable (fun j hj heq ↦ ?_) h
  have heq := tempName_inj heq
  omega

end HwExpr.Yields

end

theorem Lowered.coerce_self {v : Lowered} {type : HwType} (h : v.type = type) :
    v.coerce type = v.expr :=
  if_pos h

namespace Draft

/-- What a part of the lowering of an expression keeps: the names, and the results of all nodes but
the given ones. -/
structure Extends (ids : List NodeId) (d d' : Draft) : Prop where
  frame : d'.frame = d.frame
  temporaries : d.temporaries ≤ d'.temporaries
  results : ∀ i ∉ ids, d'.result? i = d.result? i

structure Logical (l : Lowering) (d : Draft) : Prop where
  results : ∀ i r, d.result? i = some r → ∃ v, r = some v ∧ v.type = .boolean
  bound : ∀ name, l.Supplies name → d.binding? name = some (.variable name .boolean)

variable {ids ids' : List NodeId} {d d' d'' : Draft} {l : Lowering}

namespace Extends

theorem refl (ids : List NodeId) (d : Draft) : d.Extends ids d := ⟨rfl, Nat.le_refl _, fun _ _ ↦ rfl⟩

theorem trans (h : d.Extends ids d') (h' : d'.Extends ids d'') : d.Extends ids d'' :=
  ⟨h'.frame.trans h.frame, h.temporaries.trans h'.temporaries,
    fun i hi ↦ (h'.results i hi).trans (h.results i hi)⟩

theorem mono (h : d.Extends ids d') (hsub : ids ⊆ ids') : d.Extends ids' d' :=
  ⟨h.frame, h.temporaries, fun i hi ↦ h.results i fun hmem ↦ hi (hsub hmem)⟩

theorem ofScope (hs : d.SameScope d') (ht : d'.temporaries = d.temporaries) : d.Extends ids d' :=
  ⟨hs.frame, ht.ge, fun i _ ↦ by rw [result?, hs.results]; rfl⟩

theorem temporary (d : Draft) (type : HwType) (comment : String) :
    d.Extends ids (d.temporary type comment).2 :=
  ⟨rfl, Nat.le_succ _, fun _ _ ↦ rfl⟩

end Extends

theorem temporaries_advance (d : Draft) (label : String) :
    (d.advance label).temporaries = d.temporaries := by
  unfold advance
  dsimp only
  split <;> rfl

theorem temporaries_reserve (d : Draft) (cost : Binary64) :
    (d.reserve cost).temporaries = d.temporaries := by
  unfold reserve
  dsimp only
  split
  · split
    · rfl
    · exact d.temporaries_advance _
  · split
    · exact d.temporaries_advance _
    · rfl

theorem temporaries_emit (d : Draft) (s : HwStmt) (cost : Binary64) :
    (d.emit s cost).temporaries = d.temporaries :=
  d.temporaries_reserve cost

theorem temporaries_openState (d : Draft) (label : String) :
    (d.openState label).temporaries = d.temporaries := by
  unfold openState
  split
  · rfl
  · exact d.temporaries_advance label

theorem temporaries_linkAll (sources : List Nat) (target : Nat) (d : Draft) :
    (d.linkAll sources target).temporaries = d.temporaries := by
  induction sources generalizing d with
  | nil => rfl
  | cons i rest ih => exact ih (d.link i target)

theorem Extends.reserve (d : Draft) (cost : Binary64) : d.Extends ids (d.reserve cost) :=
  .ofScope (d.sameScope_reserve cost) (d.temporaries_reserve cost)

theorem Extends.emit (d : Draft) (s : HwStmt) (cost : Binary64) : d.Extends ids (d.emit s cost) :=
  .ofScope (d.sameScope_emit s cost) (d.temporaries_emit s cost)

theorem Extends.join (d : Draft) (label : String) (source : Nat) (t : Transition DraftTarget)
    (exits : List Nat) : d.Extends ids (d.join label source t exits) :=
  .ofScope (d.sameScope_join label source t exits) (temporaries_linkAll exits _ _)

theorem result?_setResult (d : Draft) (id i : NodeId) (value : Option Lowered) :
    (d.setResult id value).result? i = if i = id then some value else d.result? i := by
  rw [result?, setResult, List.lookup_cons]
  by_cases h : i = id
  · simp [h]
  · rw [if_neg h, beq_eq_false_iff_ne.2 h]
    rfl

theorem Extends.setResult (d : Draft) {id : NodeId} (hid : id ∈ ids) (value : Option Lowered) :
    d.Extends ids (d.setResult id value) := by
  refine ⟨rfl, Nat.le_refl _, fun i hi ↦ ?_⟩
  rw [result?_setResult, if_neg]
  rintro rfl
  exact hi hid

namespace Logical

theorem kept (h : d.Logical l) (he : d.Extends [] d') : d'.Logical l := by
  refine ⟨fun i r hr ↦ h.results i r ?_, fun name hname ↦ ?_⟩
  · rwa [← he.results i List.not_mem_nil]
  · rw [binding?, he.frame]
    exact h.bound name hname

theorem setResult (h : d.Logical l) (id : NodeId) {v : Lowered} (hv : v.type = .boolean) :
    (d.setResult id (some v)).Logical l := by
  refine ⟨fun i r hr ↦ ?_, h.bound⟩
  rw [result?_setResult] at hr
  split at hr
  · exact ⟨v, (Option.some.inj hr).symm, hv⟩
  · exact h.results i r hr

end Logical

end Draft

section

variable (I : Interpretation V) (l : Lowering) (w : World V)

structure Draft.Informed (d : Draft) (values : String → V) (e : Expr) : Prop where
  parameters : ∀ name, l.Supplies name → values name = I.bool (w.parameter name)
  known : ∀ g, d.Seen g e → ∀ v, d.result? g.id = some (some v) →
    v.expr.Yields I d.temporaries values (g.truth I l.program.tree w)

variable {I l w} {d d' : Draft} {values values' : String → V} {e c : Expr} {ids : List NodeId}

namespace Draft.Informed

theorem child (h : d.Informed I l w values e) (hev : d.isEvaluated e = false) (hc : c ∈ e.children) :
    d.Informed I l w values c :=
  ⟨h.parameters, fun g hg ↦ h.known g (.under hev hc hg)⟩

theorem keep_parameters (h : d.Informed I l w values e) {n : Nat}
    (hagree : AgreeBelow n values values') (name : String) (hname : l.Supplies name) :
    values' name = I.bool (w.parameter name) :=
  (hagree name fun k _ ↦ ne_tempName hname.1 k).trans (h.parameters name hname)

/-- What is known of an expression stays known while others are evaluated. -/
theorem keep (h : d.Informed I l w values e) (he : d.Extends ids d') (hids : e.ids.Disjoint ids)
    (hagree : AgreeBelow d.temporaries values values') : d'.Informed I l w values' e := by
  refine ⟨h.keep_parameters hagree, fun g hg v hv ↦ ?_⟩
  have hsame (i) (hi : i ∈ e.ids) : d'.result? i = d.result? i := he.results i (hids hi)
  have hid : g.id ∈ e.ids := List.mem_map_of_mem hg.mem_nodes
  rw [hsame g.id hid] at hv
  exact (h.known g (hg.congr hsame) v hv).mono he.temporaries hagree

/-- A part of an expression gets its result. -/
theorem evaluate {g : Expr} (h : d.Informed I l w values e) (hids : e.ids.Nodup) (hg : g ∈ e.nodes)
    (he : d.Extends g.ids d') (hagree : AgreeBelow d.temporaries values values') {v : Lowered}
    (hv : d'.result? g.id = some (some v))
    (hyields : v.expr.Yields I d'.temporaries values' (g.truth I l.program.tree w)) :
    d'.Informed I l w values' e := by
  refine ⟨h.keep_parameters hagree, fun n hn u hu ↦ ?_⟩
  have hev : d'.isEvaluated g = true := by rw [isEvaluated, hv]; rfl
  rcases hn.eq_or_outside hids hg he.results hev with rfl | ⟨hout, hseen⟩
  · obtain rfl := Option.some.inj (Option.some.inj (hv.symm.trans hu))
    exact hyields
  · rw [he.results _ hout] at hu
    exact (h.known n hseen u hu).mono he.temporaries hagree

end Draft.Informed

end

structure Memory.Computes (n : Nat) (m m' : Memory V) : Prop where
  values : AgreeBelow n m.values m'.values
  driven : m'.driven = m.driven
  started : m'.started = m.started

namespace Memory.Computes

variable {n n' : Nat} {m m' m'' : Memory V}

theorem refl (n : Nat) (m : Memory V) : m.Computes n m := ⟨.refl n _, rfl, rfl⟩

theorem trans (h : m.Computes n m') (hle : n ≤ n') (h' : m'.Computes n' m'') : m.Computes n m'' :=
  ⟨h.values.trans hle h'.values, h'.driven.trans h.driven, h'.started.trans h.started⟩

theorem mono (h : m.Computes n' m') (hle : n ≤ n') : m.Computes n m' :=
  ⟨h.values.mono hle, h.driven, h.started⟩

theorem set (m : Memory V) {k : Nat} (hk : n ≤ k) (value : V) :
    m.Computes n (m.setVariable (tempName k) value) :=
  ⟨.set m hk value, rfl, rfl⟩

end Memory.Computes

end Fabric
