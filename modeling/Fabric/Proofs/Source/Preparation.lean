import Fabric.Proofs.Source.Issue

namespace Fabric

variable {V ι : Type} {I : Interpretation V} {M : Machine ι}

theorem BinaryOp.onBooleans_of_not_settles {op : BinaryOp} (hop : op.isLogical) {a : Bool}
    (h : op.settles a = false) (b : Bool) : op.onBooleans a b = b := by
  cases op with
  | logicAnd => cases a <;> first | rfl | cases h
  | logicOr => cases a <;> first | rfl | cases h
  | _ => cases hop

namespace Draft

variable {tree : SyntaxTree} {w : World V} {d d' : Draft} {e c : Expr} {calls : List Expr}
  {values : List (Option Lowered)}

theorem Due.congr (h : d.Due I tree w c e) (hr : ∀ i, d'.result? i = d.result? i) :
    d'.Due I tree w c e := by
  induction h with
  | here hev => exact .here ((isEvaluated_congr (hr _)).trans hev)
  | under hev hc _ ih => exact .under ((isEvaluated_congr (hr _)).trans hev) hc ih

/-- Calls of an expression that can be made: they are due, none is in another one, and their
arguments are evaluated. -/
structure Callable (I : Interpretation V) (tree : SyntaxTree) (w : World V) (d : Draft) (e : Expr)
    (calls : List Expr) : Prop where
  due : ∀ c ∈ calls, d.Due I tree w c e
  apart : calls.Pairwise fun a b ↦ b.id ∉ a.ids
  settled : ∀ c ∈ calls, ∀ a ∈ c.children, d.isPending a = false

namespace Callable

theorem congr (h : d.Callable I tree w e calls) (hr : ∀ i, d'.result? i = d.result? i) :
    d'.Callable I tree w e calls := by
  refine ⟨fun c hc ↦ (h.due c hc).congr hr, h.apart, fun c hc a ha ↦ ?_⟩
  exact isPending_mono (fun i hi ↦ by rwa [hr i]) (h.settled c hc a ha)

/-- When the first of the calls has got its result, the others can still be made. -/
theorem tail (hids : e.ids.Nodup) (h : d.Callable I tree w e (c :: calls)) (v : Option Lowered) :
    (d.setResult c.id v).Callable I tree w e calls := by
  obtain ⟨hcapart, hapart⟩ := List.pairwise_cons.1 h.apart
  have hc := (h.due c List.mem_cons_self).mem_nodes
  refine ⟨fun b hb ↦ ?_, hapart, fun b hb a ha ↦ ?_⟩
  · exact (h.due b (List.mem_cons_of_mem _ hb)).outside hids hc e.mem_nodes_self (hcapart b hb)
      (Extends.setResult d c.id_mem_ids v).results
  · refine isPending_mono (fun i hi ↦ ?_) (h.settled b (List.mem_cons_of_mem _ hb) a ha)
    rw [result?_setResult]
    split
    · rfl
    · exact hi

end Callable

def setResults (d : Draft) (calls : List Expr) (results : List (Option Lowered)) : Draft :=
  ((calls.map Expr.id).zip results).foldl (fun d x ↦ d.setResult x.1 x.2) d

variable {l : Lowering} {results : List (Option Lowered)}

theorem setResults_cons (d : Draft) (c : Expr) (calls : List Expr) (r : Option Lowered)
    (results : List (Option Lowered)) :
    d.setResults (c :: calls) (r :: results) = (d.setResult c.id r).setResults calls results :=
  rfl

theorem Extends.setResults {ids : List NodeId} (h : ∀ c ∈ calls, c.id ∈ ids) (d : Draft) :
    d.Extends ids (d.setResults calls results) := by
  induction calls generalizing d results with
  | nil => exact .refl ids d
  | cons c rest ih =>
    obtain ⟨hc, hrest⟩ := List.forall_mem_cons.1 h
    cases results with
    | nil => exact .refl ids d
    | cons r results =>
      rw [setResults_cons]
      exact (Extends.setResult d hc r).trans (ih hrest _)

theorem Logical.setResults (h : d.Logical l)
    (hr : ∀ r ∈ results, ∃ v, r = some v ∧ v.type = .boolean) :
    (d.setResults calls results).Logical l := by
  induction calls generalizing d results with
  | nil => exact h
  | cons c rest ih =>
    cases results with
    | nil => exact h
    | cons r results =>
      obtain ⟨⟨v, rfl, hv⟩, hrest⟩ := List.forall_mem_cons.1 hr
      exact ih (h.setResult c.id hv) hrest

theorem site_setResults (calls : List Expr) (results : List (Option Lowered)) (L R : Multiset Nat)
    (E : Set Nat) : (d.setResults calls results).site L R E = d.site L R E := by
  induction calls generalizing d results with
  | nil => rfl
  | cons c rest ih =>
    cases results with
    | nil => rfl
    | cons r results => exact ih (d := d.setResult c.id r) results

theorem Callable.owed_setResults (hids : e.ids.Nodup) (h : d.Callable I tree w e calls)
    (hlength : calls.length = results.length) :
    d.owed I tree w e = (calls.map (Expr.own I tree w)).sum +
      (d.setResults calls results).owed I tree w e := by
  induction calls generalizing d results with
  | nil => exact (zero_add _).symm
  | cons c rest ih =>
    cases results with
    | nil => cases hlength
    | cons r results =>
      -- The result of one call takes its own invocation out, since its arguments are not open.
      have hdue := h.due c List.mem_cons_self
      have hset : d.Extends c.ids (d.setResult c.id r) := .setResult d c.id_mem_ids r
      have hone := hdue.owed_eq hids hset.results (d.isEvaluated_setResult_self rfl r)
      rw [owed_call hdue.isEvaluated (h.settled c List.mem_cons_self),
        ih (h.tail hids r) (Nat.succ_inj.1 hlength)] at hone
      rw [hone, setResults_cons, List.map_cons, List.sum_cons, add_assoc]

section

variable {v : String → V}

theorem Informed.due (h : d.Informed I l w v e) (hc : d.Due I tree w c e) :
    d.Informed I l w v c := by
  induction hc with
  | here => exact h
  | under hev hc _ ih => exact ih (h.child hev (Expr.active_sublist _ |>.subset hc))

/-- The results of calls are known when they are recorded. -/
theorem Informed.setResults (hids : e.ids.Nodup) (hcalls : ∀ c ∈ calls, c ∈ e.nodes)
    (h : d.Informed I l w v e)
    (hr : List.Forall₂ (fun c r ↦ ∃ u : Lowered, r = some u ∧
      u.expr.Yields I d.temporaries v (c.truth I l.program.tree w)) calls results) :
    (d.setResults calls results).Informed I l w v e := by
  induction calls generalizing d results with
  | nil => exact h
  | cons c rest ih =>
    cases hr with
    | @cons _ r _ results hc hrest =>
      obtain ⟨u, rfl, hu⟩ := hc
      obtain ⟨hmem, hcalls⟩ := List.forall_mem_cons.1 hcalls
      have hset : d.Extends c.ids (d.setResult c.id (some u)) := .setResult d c.id_mem_ids _
      have hresult : (d.setResult c.id (some u)).result? c.id = some (some u) := by
        rw [result?_setResult, if_pos rfl]
      exact ih hcalls (h.evaluate hids hmem hset (.refl _ v) hresult hu) hrest

end

end Draft

namespace Execution

variable (x : Execution I M) (name : DraftTarget → ι) (z : Draft) (Γ : Interface) (l : Lowering)
  (w : World V)

structure Hosts : Prop where
  boolean : I.IsBoolean
  realizes : M.Realizes name z.code
  sees : Γ.Sees l
  distinct : l.program.NamesDistinct
  serves : ∀ target slot, Γ.HasSlot target slot → x.Serves w target slot

/-- Invocations of an expression are made on the way from one draft to another, and the others are
still to be made. -/
structure Prepares (e : Expr) (d : Draft) (made : Multiset (Started V)) (d' : Draft) : Prop where
  keeps : d.Extends e.ids d'
  logical : d'.Logical l
  owed : d.owed I l.program.tree w e = made + d'.owed I l.program.tree w e
  carries : x.Carries name z Γ True d d' True
    (fun m ↦ m.Rests I l.program ∧ d.Informed I l w m.values e)
    fun m m' ↦ m.Performs I l.program d.temporaries made m' ∧ d'.Informed I l w m'.values e

/-- An expression gets its result on the way from one draft to another, and all invocations that are
left of it are made. -/
structure Replaces (e : Expr) (d : Draft) (v : Lowered) (d' : Draft) : Prop where
  keeps : d.Extends e.ids d'
  logical : d'.Logical l
  result : d'.result? e.id = some (some v)
  carries : x.Carries name z Γ True d d' True
    (fun m ↦ m.Rests I l.program ∧ d.Informed I l w m.values e)
    fun m m' ↦ m.Performs I l.program d.temporaries (d.owed I l.program.tree w e) m' ∧
      v.expr.Yields I d'.temporaries m'.values (e.truth I l.program.tree w)

/-- An expression is stored in a temporary on the way from one draft to another, and all invocations
that are left of it are made. -/
structure Stores (k : Nat) (e : Expr) (d d' : Draft) : Prop where
  keeps : d.Extends e.ids d'
  logical : d'.Logical l
  carries : x.Carries name z Γ (Γ.Declares (tempName k) .boolean) d d' True
    (fun m ↦ m.Rests I l.program ∧ d.Informed I l w m.values e)
    fun m m' ↦ m.Performs I l.program k (d.owed I l.program.tree w e) m' ∧
      m'.values (tempName k) = I.bool (e.truth I l.program.tree w)

variable {x name z Γ l w} {d d₁ d' : Draft} {e g : Expr} {made made' : Multiset (Started V)}
  {v : Lowered} {calls : List Expr}

namespace Prepares

theorem refl (hd : d.Logical l) (ho : d.isClosed = false) :
    x.Prepares name z Γ l w e d 0 d := by
  refine ⟨.refl _ d, hd, (zero_add _).symm, ?_⟩
  refine (Carries.refl ho fun h ↦ h).conseq (fun h ↦ h) (fun _ h ↦ h) (fun _ _ ↦ trivial) ?_
  rintro m m' ⟨hrests, hinformed⟩ rfl
  exact ⟨.ofComputes hrests (.refl _ m'), hinformed⟩

theorem trans (h : x.Prepares name z Γ l w e d made d₁)
    (h' : x.Prepares name z Γ l w e d₁ made' d') :
    x.Prepares name z Γ l w e d (made + made') d' := by
  refine ⟨h.keeps.trans h'.keeps, h'.logical, ?_, ?_⟩
  · rw [h.owed, h'.owed, add_assoc]
  · refine (h.carries.seq h'.carries (fun _ h ↦ h) (fun _ _ h ↦ h) fun m m₁ _ hpost ↦
      ⟨hpost.1.rests, hpost.2⟩).conseq (fun h ↦ h) (fun _ h ↦ h) (fun _ h ↦ h) ?_
    rintro m m' - ⟨m₁, ⟨hperforms, -⟩, hperforms', hinformed⟩
    exact ⟨hperforms.trans h.keeps.temporaries hperforms', hinformed⟩

theorem ofReplaces (hids : e.ids.Nodup) (hdue : d.Due I l.program.tree w g e)
    (h : x.Replaces name z Γ l w g d v d') :
    x.Prepares name z Γ l w e d (d.owed I l.program.tree w g) d' := by
  have hev : d'.isEvaluated g = true := by rw [Draft.isEvaluated, h.result]; rfl
  refine ⟨h.keeps.mono hdue.ids_subset, h.logical, hdue.owed_eq hids h.keeps.results hev, ?_⟩
  refine h.carries.conseq (fun h ↦ h) (fun _ h ↦ h) (fun m hm ↦ ⟨hm.1, hm.2.due hdue⟩) ?_
  rintro m m' ⟨-, hinformed⟩ ⟨hperforms, hyields⟩
  refine ⟨hperforms, ?_⟩
  exact hinformed.evaluate hids hdue.mem_nodes h.keeps hperforms.values h.result hyields

theorem ofInvoke (hx : x.Hosts name z Γ l w) {expand : Expansion} (hexpand : expand.Sound Γ)
    (hids : e.ids.Nodup) (he : e.IsLogic l) (hd : d.Logical l) (ho : d.isClosed = false)
    (hne : calls ≠ []) (hcalls : d.Callable I l.program.tree w e calls)
    (hgroup : ∃ g, ∀ c ∈ calls, l.program.callGroup c.id = some g)
    (h : l.invoke expand calls d = .ok d') :
    x.Prepares name z Γ l w e d (calls.map (Expr.own I l.program.tree w)).sum d' := by
  have hnodes (c) (hc : c ∈ calls) : c ∈ e.nodes := (hcalls.due c hc).mem_nodes
  obtain ⟨batch, d₁, hbatch, h⟩ := Lowering.invoke_eq_ok h
  have hgathers := Gathers.ofGather (x := x) (Γ := Γ) (w := w) hx.boolean hx.realizes
    (fun c hc ↦ he.mono (hnodes c hc)) hd ho hbatch
  obtain ⟨hreaches, hslots⟩ := Lowering.reaches_gather hx.sees hexpand hbatch ho
  have hgather := hgathers.carries.ofReaches hreaches
  obtain ⟨rfl, -⟩ | ⟨hsome, rfl⟩ := h
  · exact absurd (List.map_eq_nil_iff.1 hgathers.ids.symm) hne
  · let invocations := batch.map Prod.snd
    have hinvocations : invocations ≠ [] := by simpa [invocations] using hsome
    have hplaces : (invocations.map Invocation.place).Nodup := by
      obtain ⟨g, hg⟩ := hgroup
      rw [List.map_map]
      exact (hslots g hg).nodup
    have hvalue : ∀ c ∈ invocations, c.returnType = some .boolean :=
      List.forall_mem_map.2 hgathers.values
    have hshake := Carries.handshake (x := x) (Γ := Γ) (w := w) hx.boolean hx.realizes hx.serves
      hx.distinct hgather.opened hinvocations hplaces hvalue calls
    let results := (d₁.handshake invocations).1
    have hresult : ((batch.map Prod.fst).zip results).foldl (fun d x ↦ d.setResult x.1 x.2)
        (d₁.handshake invocations).2 = (d₁.handshake invocations).2.setResults calls results := by
      rw [hgathers.ids]
      rfl
    have hrecord : x.Carries name z Γ (∀ v, some v ∈ results → v.Typed Γ)
        (d₁.handshake invocations).2 ((d₁.handshake invocations).2.setResults calls results) True
        (fun _ ↦ True) fun m m' ↦ m' = m := by
      rw [← hresult]
      refine .ofScope ((Lowering.reaches_setResults _ hshake.opened).conseq ?_ fun _ h ↦ h) ?_
      · exact fun htyped y hy u hu ↦ htyped u (hu ▸ (List.of_mem_zip hy).2)
      · rw [hresult]
        exact fun L R E ↦ Draft.site_setResults calls results L R E
    -- Till the results are recorded nothing is known that was not known before.
    have hkeeps : d₁.Extends [] (d₁.handshake invocations).2 := .handshake hvalue d₁
    have hall := hgathers.keeps.trans hkeeps
    have hsame (i : NodeId) : (d₁.handshake invocations).2.result? i = d.result? i :=
      hall.results i List.not_mem_nil
    have hlength : calls.length = results.length := by
      rw [Draft.length_handshake, List.length_map, ← List.length_map Prod.fst, hgathers.ids,
        List.length_map]
    have hset : (d₁.handshake invocations).2.Extends e.ids
        ((d₁.handshake invocations).2.setResults calls results) :=
      .setResults (fun c hc ↦ List.mem_map_of_mem (hnodes c hc)) _
    rw [hresult]
    refine ⟨(hall.mono (List.nil_subset _)).trans hset,
      (hd.kept hall).setResults (Draft.handshake_logic hvalue d₁), ?_, ?_⟩
    · rw [← Draft.owed_congr fun i _ ↦ hsame i]
      exact (hcalls.congr hsame).owed_setResults hids hlength
    · have hfirst : x.Carries name z Γ True d d₁ _
          (fun m ↦ m.Rests I l.program ∧ d.Informed I l w m.values e) _ :=
        hgather.conseq (fun h ↦ h) (fun _ h ↦ h) (fun m hm c hc a ha ↦
          (hm.2.due (hcalls.due c hc)).child (hcalls.due c hc).isEvaluated ha) fun m m' _ h ↦ h
      have hboth := hfirst.seq hshake (fun _ hs c hc ↦ ?_) (fun _ _ h ↦ h) fun m m₁ hm hpost ↦
        ⟨hm.1.congr hpost.1.driven, hpost.2⟩
      · refine (hboth.seq hrecord (fun _ h ↦ h) (fun _ _ h ↦ h) fun _ _ _ _ ↦ trivial).conseq
          (fun h ↦ h) (fun _ h ↦ h) (fun _ h ↦ h) ?_
        rintro m m' ⟨hrests, hinformed⟩ ⟨_, ⟨m₁, ⟨hcomputes, -⟩, hperforms, hvalues⟩, rfl⟩
        have hdone := (Memory.Performs.ofComputes hrests hcomputes).trans hgathers.keeps.temporaries
          hperforms
        rw [zero_add] at hdone
        refine ⟨hdone, Draft.Informed.setResults hids hnodes ?_ hvalues⟩
        exact hinformed.keep hall (List.disjoint_nil_right _) hdone.values
      · obtain ⟨b, hb, rfl⟩ := List.mem_map.1 hc
        exact hs b hb

end Prepares

end Execution

end Fabric
