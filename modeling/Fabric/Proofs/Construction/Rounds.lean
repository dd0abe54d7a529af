import Fabric.Proofs.Construction.Working

namespace Fabric

open Synthesis
open scoped List

theorem Ready.Apt.eq_none {d : Draft} {r : Ready} (h : r.Apt d []) : r = .none := by
  obtain ⟨calls, guarded⟩ := r
  obtain rfl : calls = [] := List.sublist_nil.1 h.sub
  cases guarded with
  | none => rfl
  | some g => cases (h.guarded g rfl).1

namespace Draft

variable {d d' d'' : Draft} {e c x : Expr}

def KeepsResults (d d' : Draft) : Prop :=
  ∀ id, (d.result? id).isSome → (d'.result? id).isSome

theorem KeepsResults.refl (d : Draft) : d.KeepsResults d :=
  fun _ h ↦ h

theorem KeepsResults.trans (h : d.KeepsResults d') (h' : d'.KeepsResults d'') :
    d.KeepsResults d'' :=
  fun id hid ↦ h' id (h id hid)

theorem KeepsResults.of_results (h : d'.results = d.results) : d.KeepsResults d' := by
  intro id hid
  rwa [result?, h]

theorem keepsResults_setResult (d : Draft) (id : NodeId) (v : Option Lowered) :
    d.KeepsResults (d.setResult id v) := by
  intro i hi
  rw [result?_setResult]
  split
  · rfl
  · exact hi

theorem keepsResults_fork (d : Draft) (label : String) :
    d.KeepsResults ((d.addState label).enter d.nextState) :=
  .of_results rfl

theorem keepsResults_emit (d : Draft) (s : HwStmt) (cost : Binary64) :
    d.KeepsResults (d.emit s cost) :=
  .of_results (d.sameScope_emit s cost).results

theorem isPending_of_ready_eq_none (h : d.ready e = .none) : d.isPending e = false := by
  by_contra hp
  exact ready_ne_none (by simpa using hp) h

theorem isEvaluated_of_mem_openNodes (h : x ∈ d.openNodes e) :
    d.isEvaluated x = false ∧ (x.isCall || x.isGuarded) = true := by
  induction e using Expr.induction_children with
  | step e ih =>
    rw [openNodes_eq] at h
    split at h
    · cases h
    next hev =>
      rcases List.mem_append.1 h with h | h
      · split at h
        next hopen =>
          obtain rfl := List.mem_singleton.1 h
          exact ⟨by simpa using hev, hopen⟩
        · cases h
      · obtain ⟨c, hc, hx⟩ := List.mem_flatMap.1 h
        exact ih c hc hx

/-- The open nodes of an open node are that node and those of its operands. -/
theorem openNodes_of_mem (h : x ∈ d.openNodes e) :
    d.openNodes x = x :: x.children.flatMap d.openNodes := by
  obtain ⟨hev, hopen⟩ := isEvaluated_of_mem_openNodes h
  rw [openNodes_eq, hev, hopen]
  rfl

theorem openNodes_sublist_of_mem (h : x ∈ d.openNodes e) : d.openNodes x <+ d.openNodes e := by
  induction e using Expr.induction_children with
  | step e ih =>
    have heq := d.openNodes_eq e
    split at heq
    · rw [heq] at h
      cases h
    next =>
      rw [heq] at h
      rcases List.mem_append.1 h with h | h
      · split at h
        · rw [List.mem_singleton.1 h]
        · cases h
      · obtain ⟨c, hc, hx⟩ := List.mem_flatMap.1 h
        rw [heq]
        exact ((ih c hc hx).trans (ParentIndex.sublist_flatMap hc)).trans
          (List.sublist_append_right _ _)

theorem openNodes_child_lt (h : x ∈ d.openNodes e) (hc : c ∈ x.children) :
    (d.openNodes c).length < (d.openNodes e).length := by
  have hnode := (openNodes_sublist_of_mem h).length_le
  have hchild := (ParentIndex.sublist_flatMap (f := d.openNodes) hc).length_le
  rw [openNodes_of_mem h, List.length_cons] at hnode
  omega

theorem openNodes_mono (h : d.KeepsResults d') (e : Expr) : d'.openNodes e <+ d.openNodes e := by
  induction e using Expr.induction_children with
  | step e ih =>
    rw [openNodes_eq d', openNodes_eq d]
    cases hev : d.isEvaluated e with
    | true =>
      rw [show d'.isEvaluated e = true from h e.id hev]
      exact .refl _
    | false =>
      split
      · exact List.nil_sublist _
      · exact (List.Sublist.refl _).append (List.Sublist.flatMap_right _ ih)

theorem openNodes_lt (h : d.KeepsResults d') (hx : x ∈ d.openNodes e) (hev : d'.isEvaluated x) :
    (d'.openNodes e).length < (d.openNodes e).length := by
  refine Nat.lt_of_le_of_ne (openNodes_mono h e).length_le fun heq ↦ ?_
  rw [← (openNodes_mono h e).eq_of_length heq] at hx
  rw [(isEvaluated_of_mem_openNodes hx).1] at hev
  cases hev

end Draft

theorem Expr.callsAmong_append (e : Expr) (nodes : List Expr) : e.CallsAmong (e.nodes ++ nodes) :=
  fun _ hn _ ↦ List.mem_append_left _ hn

/-- The operands of an open node call only what is called in the expression. -/
theorem Expr.CallsAmong.of_open {nodes : List Expr} {d : Draft} {e g c : Expr}
    (h : e.CallsAmong nodes) (hg : g ∈ d.openNodes e) (hc : c ∈ g.children) : c.CallsAmong nodes :=
  (h.of_mem ((d.openNodes_sublist e).subset hg)).of_mem
    (nodes_subset_of_mem_children hc c.mem_nodes_self)

namespace Lowering

variable {l : Lowering} {nodes : List Expr} {own : List String} {expand : Expansion}
  {d d' : Draft} {e g : Expr}

theorem Works.keepsResults (h : l.Works nodes own d d') : d.KeepsResults d' := by
  induction h with
  | same hs => exact .of_results hs.results
  | trans _ _ ih ih' => exact ih.trans ih'
  | declare type comment =>
    intro id hid
    unfold Draft.declare
    dsimp only
    split <;> exact hid
  | temporary | index => exact .refl _
  | restore _ ih | expanded _ ih => exact ih
  | call => exact Draft.keepsResults_setResult _ _ _
  | guarded _ _ _ _ ih => exact ih.trans (Draft.keepsResults_setResult _ _ _)

theorem keepsResults_setResults (pairs : List (NodeId × Option Lowered)) (d : Draft) :
    d.KeepsResults (pairs.foldl (fun d x ↦ d.setResult x.1 x.2) d) := by
  induction pairs generalizing d with
  | nil => exact .refl d
  | cons x rest ih => exact (d.keepsResults_setResult x.1 x.2).trans (ih _)

theorem isEvaluated_setResults {pairs : List (NodeId × Option Lowered)}
    (he : e.id ∈ pairs.map Prod.fst) :
    (pairs.foldl (fun d x ↦ d.setResult x.1 x.2) d).isEvaluated e := by
  induction pairs generalizing d with
  | nil => cases he
  | cons x rest ih =>
    rcases List.mem_cons.1 he with hid | he
    · exact keepsResults_setResults rest _ e.id (d.isEvaluated_setResult_self hid x.2)
    · exact ih he

theorem isEvaluated_guarded {prepare : Expr → Draft → Synthesis Draft}
    (h : l.guarded prepare g d = .ok d') : d'.isEvaluated g := by
  cases guarded_eq_ok h with
  | conditional | binary => exact Draft.isEvaluated_setResult_self _ rfl _

section

variable (hexpand : expand.Learns l (l.Works nodes own))

include hexpand

theorem gather_evaluates {calls : List Expr} (hsub : calls ⊆ nodes)
    {batch : List (NodeId × Invocation)} (hg : l.gather expand calls d = .ok (batch, d')) :
    ∀ c ∈ calls, d'.isEvaluated c ∨ c.id ∈ batch.map Prod.fst := by
  induction calls generalizing d batch with
  | nil => exact List.forall_mem_nil _
  | cons e rest ih =>
    obtain ⟨-, hrest⟩ := List.cons_subset.1 hsub
    obtain ⟨h, args, -, ⟨-, value, d₁, -, hg⟩ | ⟨-, group, c, d₁, others, -, -, hothers, rfl⟩⟩ :=
      gather_eq_ok hg
    · have hkeeps := (Works.ofLearns (learns_gather hexpand hrest hg).1).keepsResults
      exact List.forall_mem_cons.2
        ⟨.inl (hkeeps e.id (d₁.isEvaluated_setResult_self rfl value)), ih hrest hg⟩
    · refine List.forall_mem_cons.2 ⟨.inr List.mem_cons_self, fun x hx ↦ ?_⟩
      exact (ih hrest hothers x hx).imp_right (List.mem_cons_of_mem _)

theorem invoke_evaluates {calls : List Expr} (hsub : calls ⊆ nodes)
    (hi : l.invoke expand calls d = .ok d') : ∀ c ∈ calls, d'.isEvaluated c := by
  obtain ⟨batch, d₁, hbatch, hi⟩ := invoke_eq_ok hi
  have hdone := gather_evaluates hexpand hsub hbatch
  obtain ⟨rfl, rfl⟩ | ⟨-, rfl⟩ := hi
  · exact fun c hc ↦ (hdone c hc).resolve_right List.not_mem_nil
  · have hfst : ((batch.map Prod.fst).zip (d₁.handshake (batch.map Prod.snd)).1).map Prod.fst =
        batch.map Prod.fst := by
      refine List.map_fst_zip ?_
      rw [Draft.length_handshake, List.length_map, List.length_map]
    have hshake : l.Works nodes own d₁ (d₁.handshake (batch.map Prod.snd)).2 :=
      Works.ofLearns (learns_handshake (batch.map Prod.snd) d₁).1
    intro c hc
    rcases hdone c hc with hev | hmem
    · exact keepsResults_setResults _ _ c.id (hshake.keepsResults c.id hev)
    · refine isEvaluated_setResults ?_
      rwa [hfst]

theorem keepsResults_prepareUpTo {rounds : Nat} (hcalls : e.CallsAmong nodes)
    (h : l.prepareUpTo expand rounds e d = .ok d') : d.KeepsResults d' :=
  (Works.ofLearns (learns_prepareUpTo hexpand rounds hcalls h)).keepsResults

end

theorem bind_congr_ok {α β : Type} {x : Synthesis α} {f g : α → Synthesis β}
    (h : ∀ a, x = .ok a → f a = g a) : (x >>= f) = (x >>= g) := by
  cases x with
  | error _ => rfl
  | ok a => exact h a rfl

theorem storeIn_congr {name : String} {type : HwType} {p q : Expr → Draft → Synthesis Draft}
    (h : p e d = q e d) : l.storeIn name type p e d = l.storeIn name type q e d := by
  rw [storeIn, h, storeIn]

theorem keepsResults_expr {v : Lowered} (h : l.expr e d = .ok (v, d')) : d.KeepsResults d' :=
  have hworks : l.Works [] [] d d' := works_expr h
  hworks.keepsResults

theorem keepsResults_storeIn {name : String} {type : HwType} {p : Expr → Draft → Synthesis Draft}
    (hp : ∀ {d d'}, p e d = .ok d' → d.KeepsResults d')
    (h : l.storeIn name type p e d = .ok d') : d.KeepsResults d' := by
  obtain ⟨d₁, v, d₂, h₁, h₂, rfl⟩ := storeIn_eq_ok h
  exact ((hp h₁).trans (keepsResults_expr h₂)).trans (d₂.keepsResults_emit _ _)

/-- A guarded expression has its operands prepared in drafts that keep the results. -/
theorem guarded_congr {p q : Expr → Draft → Synthesis Draft}
    (hkeeps : ∀ c ∈ g.children, ∀ {d d'}, p c d = .ok d' → d.KeepsResults d')
    (h : ∀ c ∈ g.children, ∀ d', d.KeepsResults d' → p c d' = q c d') :
    l.guarded p g d = l.guarded q g d := by
  cases g with
  | conditional id condition ifTrue ifFalse =>
    unfold guarded
    refine bind_congr_ok fun type htype ↦ ?_
    dsimp only
    refine bind_congr_ok ?_
    rintro ⟨c, d₁⟩ hc
    dsimp only
    have hready : d.KeepsResults (d₁.reserve c.cost) :=
      (keepsResults_expr hc).trans (.of_results (d₁.sameScope_reserve c.cost).results)
    have hfork := hready.trans ((d₁.reserve c.cost).keepsResults_fork "conditional: true")
    rw [← storeIn_congr (h ifTrue (by simp [Expr.children]) _ hfork)]
    refine bind_congr_ok fun d₂ htrue ↦ ?_
    have hbranch := keepsResults_storeIn (hkeeps ifTrue (by simp [Expr.children])) htrue
    have hfork' := (hfork.trans hbranch).trans (d₂.keepsResults_fork "conditional: false")
    rw [storeIn_congr (h ifFalse (by simp [Expr.children]) _ hfork')]
  | binary id op lhs rhs =>
    unfold guarded
    dsimp only
    refine bind_congr_ok ?_
    rintro ⟨left, d₁⟩ hleft
    have htemporary : d.KeepsResults (d.temporary .boolean "short-circuit value").2 :=
      .of_results rfl
    have hready := htemporary.trans (keepsResults_expr hleft)
    dsimp only
    rw [storeIn_congr (h rhs (by simp [Expr.children]) _
      ((hready.trans (d₁.keepsResults_emit _ _)).trans (Draft.keepsResults_fork _ _)))]
  | _ => rfl

section

variable (hexpand : expand.Learns l (l.Works nodes own))

include hexpand

theorem invoke_round (hcalls : e.CallsAmong nodes) (hi : l.invoke expand (d.ready e).calls d = .ok d') :
    d.KeepsResults d' ∧ (∀ c ∈ (d.ready e).calls, d'.isEvaluated c) ∧
      ((d.ready e).calls ≠ [] → (d'.openNodes e).length < (d.openNodes e).length) := by
  have hapt := d.apt_ready_open e
  have hsub : (d.ready e).calls ⊆ nodes := fun x hx ↦
    hcalls x ((hapt.sub.trans (d.openNodes_sublist e)).subset hx)
      (Expr.containsCall_of_isCall (hapt.calls x hx).1)
  have hkeeps := (Works.ofLearns (learns_invoke hexpand hsub hi)).keepsResults
  have hdone := invoke_evaluates hexpand hsub hi
  refine ⟨hkeeps, hdone, fun hne ↦ ?_⟩
  obtain ⟨c, hc⟩ := List.exists_mem_of_ne_nil _ hne
  exact Draft.openNodes_lt hkeeps (hapt.sub.subset hc) (hdone c hc)

omit hexpand in
theorem guarded_round {p : Expr → Draft → Synthesis Draft} (hcalls : e.CallsAmong nodes)
    (hg : g ∈ (d.ready e).guarded)
    (hp : ∀ {c}, c.CallsAmong nodes → ∀ {d d'}, p c d = .ok d' →
      l.Learns (l.Works nodes own) nodes d d')
    (h : l.guarded p g d = .ok d') :
    d.KeepsResults d' ∧ d'.isEvaluated g ∧
      (d'.openNodes e).length < (d.openNodes e).length := by
  obtain ⟨hmem, hguarded, hev, -⟩ := (d.apt_ready_open e).guarded g hg
  have hnode := hcalls g ((d.openNodes_sublist e).subset hmem)
    (Expr.containsCall_of_isGuarded hguarded)
  have hkeeps := (Works.ofLearns (learns_guarded hnode hguarded hev
    (fun c hc _ _ hrun ↦ hp (hcalls.of_open hmem hc) hrun) h)).keepsResults
  have hdone := isEvaluated_guarded h
  exact ⟨hkeeps, hdone, Draft.openNodes_lt hkeeps hmem hdone⟩

omit hexpand in
theorem prepareUpTo_of_openNodes_nil (h : (d.openNodes e).length ≤ 0) (n : Nat) :
    l.prepareUpTo expand n e d = .ok d := by
  have hapt := d.apt_ready_open e
  rw [List.length_eq_zero_iff.1 (Nat.le_zero.1 h)] at hapt
  cases n with
  | zero => rfl
  | succ n => rw [prepareUpTo, hapt.eq_none, Ready.none]

/-- In preparation there is a round for each open node, and more rounds change nothing. -/
theorem prepareUpTo_congr {m n : Nat} (hcalls : e.CallsAmong nodes)
    (hm : (d.openNodes e).length ≤ m) (hn : (d.openNodes e).length ≤ n) :
    l.prepareUpTo expand m e d = l.prepareUpTo expand n e d := by
  induction m generalizing n e d with
  | zero => rw [prepareUpTo_of_openNodes_nil hm, prepareUpTo_of_openNodes_nil hm]
  | succ m ih =>
    cases n with
    | zero => rw [prepareUpTo_of_openNodes_nil hn, prepareUpTo_of_openNodes_nil hn]
    | succ n =>
      rw [prepareUpTo, prepareUpTo]
      cases hready : d.ready e with
      | mk calls guarded =>
        cases calls with
        | nil =>
          cases guarded with
          | none => rfl
          | some g =>
            have hg : g ∈ (d.ready e).guarded := by rw [hready]; rfl
            obtain ⟨hmem, -, -, -⟩ := (d.apt_ready_open e).guarded g hg
            have hchild {c : Expr} (hc : c ∈ g.children) := hcalls.of_open hmem hc
            have hsame : l.guarded (l.prepareUpTo expand m) g d =
                l.guarded (l.prepareUpTo expand n) g d := by
              refine guarded_congr
                (fun c hc _ _ h ↦ keepsResults_prepareUpTo hexpand (hchild hc) h) fun c hc d' hd' ↦ ?_
              have hlt := Draft.openNodes_child_lt hmem hc
              have hle := (Draft.openNodes_mono hd' c).length_le
              exact ih (hchild hc) (by omega) (by omega)
            dsimp only
            rw [hsame]
            refine bind_congr_ok fun d₁ hd₁ ↦ ?_
            have hlt := (guarded_round hcalls hg (fun hc _ _ h ↦ learns_prepareUpTo hexpand n hc h) hd₁).2.2
            exact ih hcalls (by omega) (by omega)
        | cons c rest =>
          refine bind_congr_ok fun d₁ hd₁ ↦ ?_
          have hinvoke : l.invoke expand (d.ready e).calls d = .ok d₁ := by rw [hready]; exact hd₁
          have hlt := (invoke_round hexpand hcalls hinvoke).2.2 (by rw [hready]; exact List.cons_ne_nil _ _)
          exact ih hcalls (by omega) (by omega)

theorem prepareUpTo_eq_prepare {n : Nat} (hcalls : e.CallsAmong nodes)
    (hn : (d.openNodes e).length ≤ n) : l.prepareUpTo expand n e d = l.prepare expand e d :=
  prepareUpTo_congr hexpand hcalls hn
    ((d.openNodes_sublist e).length_le.trans (Nat.le_succ _))

theorem prepare_invoke (hcalls : e.CallsAmong nodes) (hne : (d.ready e).calls ≠ []) :
    l.prepare expand e d = l.invoke expand (d.ready e).calls d >>= l.prepare expand e := by
  have hrun : l.prepare expand e d =
      l.invoke expand (d.ready e).calls d >>= l.prepareUpTo expand e.nodes.length e := by
    rw [prepare, prepareUpTo]
    split
    next hready => exact absurd (by rw [hready]) hne
    next hready => exact absurd (by rw [hready]) hne
    next hready => rw [hready]
  rw [hrun]
  refine bind_congr_ok fun d₁ hd₁ ↦ prepareUpTo_eq_prepare hexpand hcalls ?_
  have hlt := (invoke_round hexpand hcalls hd₁).2.2 hne
  have hle := (d.openNodes_sublist e).length_le
  omega

/-- Preparation goes on after a round of a guarded expression, whose operands are prepared likewise. -/
theorem prepare_guarded (hcalls : e.CallsAmong nodes) (hnil : (d.ready e).calls = [])
    (hg : g ∈ (d.ready e).guarded) :
    l.prepare expand e d = l.guarded (l.prepare expand) g d >>= l.prepare expand e := by
  obtain ⟨hmem, -, -, -⟩ := (d.apt_ready_open e).guarded g hg
  have hchild {c : Expr} (hc : c ∈ g.children) := hcalls.of_open hmem hc
  have hle := (d.openNodes_sublist e).length_le
  have hsame : l.guarded (l.prepareUpTo expand e.nodes.length) g d =
      l.guarded (l.prepare expand) g d := by
    refine guarded_congr
      (fun c hc _ _ h ↦ keepsResults_prepareUpTo hexpand (hchild hc) h) fun c hc d' hd' ↦ ?_
    have hlt := Draft.openNodes_child_lt hmem hc
    have hmono := (Draft.openNodes_mono hd' c).length_le
    exact prepareUpTo_eq_prepare hexpand (hchild hc) (by omega)
  have hrun : l.prepare expand e d = l.guarded (l.prepareUpTo expand e.nodes.length) g d >>=
      l.prepareUpTo expand e.nodes.length e := by
    have hready : d.ready e = ⟨[], some g⟩ := by
      rw [← hnil, ← Option.mem_def.1 hg]
    rw [prepare, prepareUpTo, hready]
  rw [hrun, ← hsame]
  refine bind_congr_ok fun d₁ hd₁ ↦ prepareUpTo_eq_prepare hexpand hcalls ?_
  have hlt := (guarded_round hcalls hg (fun hc _ _ h ↦ learns_prepareUpTo hexpand _ hc h) hd₁).2.2
  omega

end

/-- The outcomes of the loop that prepares an expression: the calls that are ready are made, or else the guarded
expression that is ready is evaluated, until nothing is ready. -/
inductive Rounds (l : Lowering) (expand : Expansion) : Expr → Draft → Synthesis Draft → Prop
  | done {e : Expr} {d : Draft} : d.ready e = .none → Rounds l expand e d (.ok d)
  | invoke {e : Expr} {d : Draft} {rest : Draft → Synthesis Draft} : (d.ready e).calls ≠ [] →
      (∀ d', l.invoke expand (d.ready e).calls d = .ok d' → Rounds l expand e d' (rest d')) →
      Rounds l expand e d (l.invoke expand (d.ready e).calls d >>= rest)
  | guarded {e g : Expr} {d : Draft} {prepare : Expr → Draft → Synthesis Draft}
      {rest : Draft → Synthesis Draft} : (d.ready e).calls = [] → g ∈ (d.ready e).guarded →
      (∀ c ∈ g.children, ∀ d', Rounds l expand c d' (prepare c d')) →
      (∀ d', l.guarded prepare g d = .ok d' → Rounds l expand e d' (rest d')) →
      Rounds l expand e d (l.guarded prepare g d >>= rest)

section

variable (hexpand : expand.Learns l (l.Works nodes own))

include hexpand

theorem Rounds.eq_prepare {r : Synthesis Draft} (hcalls : e.CallsAmong nodes)
    (h : l.Rounds expand e d r) : r = l.prepare expand e d := by
  induction h with
  | done hready => exact (prepare_of_not_pending (Draft.isPending_of_ready_eq_none hready)).symm
  | invoke hne _ ih =>
    rw [prepare_invoke hexpand hcalls hne]
    exact bind_congr_ok fun d' hd' ↦ ih d' hd' hcalls
  | @guarded e g d prepare rest hnil hg _ _ ihc ih =>
    obtain ⟨hmem, -, -, -⟩ := (d.apt_ready_open e).guarded g hg
    have hchild {c : Expr} (hc : c ∈ g.children) := hcalls.of_open hmem hc
    have heq {c : Expr} (hc : c ∈ g.children) (d' : Draft) : prepare c d' = l.prepare expand c d' :=
      ihc c hc d' (hchild hc)
    have hsame : l.guarded prepare g d = l.guarded (l.prepare expand) g d := by
      refine guarded_congr (fun c hc _ _ h ↦ ?_) fun c hc d' _ ↦ heq hc d'
      rw [heq hc] at h
      exact keepsResults_prepareUpTo hexpand (hchild hc) h
    rw [prepare_guarded hexpand hcalls hnil hg, hsame]
    exact bind_congr_ok fun d' hd' ↦ ih d' (hsame ▸ hd') hcalls

theorem rounds_prepare (hcalls : e.CallsAmong nodes) (d : Draft) :
    l.Rounds expand e d (l.prepare expand e d) := by
  -- Operands have fewer nodes, and after a round fewer nodes are open.
  induction hn : e.nodes.length using Nat.strongRecOn generalizing e d with
  | ind n ihn =>
    induction hm : (d.openNodes e).length using Nat.strongRecOn generalizing d with
    | ind m ihm =>
      by_cases hnil : (d.ready e).calls = []
      · cases hg : (d.ready e).guarded with
        | none =>
          have hready : d.ready e = .none := by rw [Ready.none, ← hnil, ← hg]
          rw [prepare_of_not_pending (Draft.isPending_of_ready_eq_none hready)]
          exact .done hready
        | some g =>
          obtain ⟨hmem, -, -, -⟩ := (d.apt_ready_open e).guarded g hg
          rw [prepare_guarded hexpand hcalls hnil hg]
          refine .guarded hnil hg (fun c hc d' ↦ ?_) fun d' hd' ↦ ?_
          · refine ihn c.nodes.length ?_ (hcalls.of_open hmem hc) d' rfl
            have hnode := (Expr.nodes_sublist ((d.openNodes_sublist e).subset hmem)).length_le
            have hchild := (ParentIndex.sublist_flatMap (f := Expr.nodes) hc).length_le
            rw [g.nodes_eq, List.length_cons] at hnode
            omega
          · refine ihm _ ?_ d' rfl
            have hlt := (guarded_round hcalls hg (fun hc _ _ h ↦ learns_prepare hexpand hc h) hd').2.2
            omega
      · rw [prepare_invoke hexpand hcalls hnil]
        refine .invoke hnil fun d' hd' ↦ ihm _ ?_ d' rfl
        have hlt := (invoke_round hexpand hcalls hd').2.2 hnil
        omega

end

theorem Rounds.settles {r : Synthesis Draft} (h : l.Rounds expand e d r) (hr : r = .ok d') :
    d'.isPending e = false := by
  induction h with
  | done hready =>
    obtain rfl := Except.ok.inj hr
    exact Draft.isPending_of_ready_eq_none hready
  | invoke _ _ ih | guarded _ _ _ _ _ ih =>
    obtain ⟨d₁, hd₁, hrest⟩ := bind_eq_ok.1 hr
    exact ih d₁ hd₁ hrest

def exprWith (l : Lowering) (call : Expr → Draft → Synthesis (Lowered × Draft)) (e : Expr)
    (d : Draft) : Synthesis (Lowered × Draft) :=
  match d.result? e.id with
  | some (some value) => .ok (.free value.expr value.type, d)
  | some none => l.unsupported "use of a void call result"
  | none =>
    match e with
    | .literal _ value => .ok (.ofLiteral value, d)
    | .getLocal _ name | .getParameter _ name => do
      match ← l.lookup d name with
      | .variable name type => return (.ofVariable name type, d)
      | .constant value type => return (.free value type, d)
    | .getField _ f => l.fieldAccess f
    | .unary _ op operand => do
      let (v, d) ← exprWith l call operand d
      return (← l.unary op v, d)
    | .binary _ op lhs rhs => do
      let (a, d) ← exprWith l call lhs d
      let (b, d) ← exprWith l call rhs d
      return (← l.binary op a b, d)
    | .call _ _ _ => call e d
    | .newArray _ element length => do
      let type ← l.newArrayType element length
      return (.free (.int 0 type) type, d)
    | .arrayElement _ array index => do
      let (a, d) ← exprWith l call array d
      let (i, d) ← exprWith l call index d
      return (← l.element a i, d)
    | .arrayLength _ array => do
      match ← l.infer d array with
      | .array _ length =>
        return (.free (.int (Int64.ofNat length.toNat) (.signed 32)) (.signed 32), d)
      | _ => l.unsupported "length of a value that is not an array"
    | .conditional _ condition ifTrue ifFalse => do
      let type ← l.infer d e
      let (c, d) ← exprWith l call condition d
      let (a, d) ← exprWith l call ifTrue d
      let (b, d) ← exprWith l call ifFalse d
      a.checkCoerce type
      b.checkCoerce type
      let (name, d) := d.temporary type "conditional value"
      let choice := HwStmt.branch (c.coerce .boolean)
        [.setVariable name (a.coerce type)] [.setVariable name (b.coerce type)]
      return (.ofVariable name type, d.emit choice (c.cost + max a.cost b.cost))
    | .cast _ type operand => do
      let target ← l.require ("conversion to `" ++ type.display ++ "`") type.scalarHardware?
      let (v, d) ← exprWith l call operand d
      v.checkCoerce target
      return (⟨v.coerce target, target, v.cost⟩, d)

/-- Lowers an expression. A call that was not evaluated is prepared, and lowered again where that is done
no more often, one inside the other, than the given number of times. -/
def exprUpTo (l : Lowering) (expand : Expansion) : Nat → Expr → Draft → Synthesis (Lowered × Draft)
  | 0 => l.exprWith fun _ _ ↦ .error (.inconsistent "call that was not evaluated")
  | n + 1 => l.exprWith fun e d ↦ do exprUpTo l expand n e (← l.prepare expand e d)

theorem exprUpTo_zero : l.exprUpTo expand 0 = l.expr := by
  rw [exprUpTo]
  funext e
  induction e using Expr.induction with
  | literal | getLocal | getParameter | getField | call | newArray | arrayLength =>
    funext d
    rewrite [exprWith, expr]
    rfl
  | unary _ _ _ ih | cast _ _ _ ih =>
    funext d
    rewrite [exprWith, expr, ih]
    rfl
  | binary id op lhs rhs ihl ihr =>
    funext d
    rewrite [exprWith, expr, ihl, ihr]
    rfl
  | arrayElement id array index iha ihi =>
    funext d
    rewrite [exprWith, expr, iha, ihi]
    rfl
  | conditional id condition ifTrue ifFalse ihc iht ihf =>
    funext d
    rewrite [exprWith, expr, ihc, iht, ihf]
    rfl

theorem exprWith_of_not_pending {call : Expr → Draft → Synthesis (Lowered × Draft)}
    (h : d.isPending e = false) : l.exprWith call e d = l.expr e d := by
  -- An expression that has a result is not lowered.
  have hall {e : Expr} (hnone : ∀ {d : Draft}, d.result? e.id = none → d.isPending e = false →
      l.exprWith call e d = l.expr e d) {d : Draft} (h : d.isPending e = false) :
      l.exprWith call e d = l.expr e d := by
    cases hr : d.result? e.id with
    | none => exact hnone hr h
    | some r => cases e <;> rw [exprWith, expr, hr] <;> cases r <;> rfl
  refine hall (fun {d} hr h ↦ ?_) h
  clear * - hr h hall
  induction e using Expr.induction generalizing d with
  | literal | getLocal | getParameter | getField | newArray | arrayLength =>
    rewrite [exprWith, expr]
    rfl
  | call id target args => cases (Draft.isPending_child h hr).1
  | unary id op operand ih =>
    rw [exprWith, expr, hr]
    dsimp only
    rw [hall ih ((Draft.isPending_child h hr).2 operand (by simp [Expr.children]))]
  | binary id op lhs rhs ihl ihr =>
    have hchild := (Draft.isPending_child h hr).2
    rw [exprWith, expr, hr]
    dsimp only
    rw [hall ihl (hchild lhs (by simp [Expr.children]))]
    refine bind_congr_ok ?_
    rintro ⟨a, d₁⟩ ha
    dsimp only
    rw [hall ihr (Draft.isPending_mono (keepsResults_expr ha) (hchild rhs (by simp [Expr.children])))]
  | arrayElement id array index iha ihi =>
    have hchild := (Draft.isPending_child h hr).2
    rw [exprWith, expr, hr]
    dsimp only
    rw [hall iha (hchild array (by simp [Expr.children]))]
    refine bind_congr_ok ?_
    rintro ⟨a, d₁⟩ ha
    dsimp only
    rw [hall ihi (Draft.isPending_mono (keepsResults_expr ha)
      (hchild index (by simp [Expr.children])))]
  | conditional id condition ifTrue ifFalse ihc iht ihf =>
    have hchild := (Draft.isPending_child h hr).2
    rw [exprWith, expr, hr]
    dsimp only
    refine bind_congr_ok fun type _ ↦ ?_
    rw [hall ihc (hchild condition (by simp [Expr.children]))]
    refine bind_congr_ok ?_
    rintro ⟨c, d₁⟩ hc
    have hkeeps := keepsResults_expr hc
    dsimp only
    rw [hall iht (Draft.isPending_mono hkeeps (hchild ifTrue (by simp [Expr.children])))]
    refine bind_congr_ok ?_
    rintro ⟨a, d₂⟩ ha
    dsimp only
    rw [hall ihf (Draft.isPending_mono (hkeeps.trans (keepsResults_expr ha))
      (hchild ifFalse (by simp [Expr.children])))]
  | cast id type operand ih =>
    rw [exprWith, expr, hr]
    dsimp only
    refine bind_congr_ok fun target _ ↦ ?_
    rw [hall ih ((Draft.isPending_child h hr).2 operand (by simp [Expr.children]))]

/-- How calls are expanded in the body of the planned member, and in a member that is expanded itself. -/
def expansionIn (l : Lowering) : Bool → Expansion
  | false => l.expand (l.stmt noExpansion)
  | true => noExpansion

theorem learns_expansionIn (l : Lowering) (isExpanded : Bool) (e : Expr) :
    (l.expansionIn isExpanded).Learns l (l.Works (e.nodes ++ l.program.tree.exprNodes) []) := by
  cases isExpanded with
  | true => exact @learns_noExpansion l _
  | false =>
    refine works_expandBody fun h _ s hs ↦ ?_
    exact fun x hx hcall ↦
      List.mem_append_right _ (SyntaxTree.callsAmong_exprNodes hs x hx hcall)

theorem rounds_iff {isExpanded : Bool} {r : Synthesis Draft} :
    l.Rounds (l.expansionIn isExpanded) e d r ↔ r = l.prepare (l.expansionIn isExpanded) e d := by
  have hlearns := @learns_expansionIn l isExpanded e
  have hcalls := e.callsAmong_append l.program.tree.exprNodes
  refine ⟨Rounds.eq_prepare hlearns hcalls, ?_⟩
  rintro rfl
  exact rounds_prepare hlearns hcalls d

theorem prepare_settles {isExpanded : Bool} (h : l.prepare (l.expansionIn isExpanded) e d = .ok d') :
    d'.isPending e = false :=
  (rounds_iff.2 rfl : l.Rounds (l.expansionIn isExpanded) e d _).settles h

/-- A call that is lowered where it stands is prepared once and then has its result. -/
theorem exprUpTo_succ (l : Lowering) (isExpanded : Bool) (n : Nat) :
    l.exprUpTo (l.expansionIn isExpanded) (n + 1) =
      l.exprWith fun e d ↦ l.prepare (l.expansionIn isExpanded) e d >>= l.expr e := by
  rw [exprUpTo]
  congr 1
  funext e d
  refine bind_congr_ok fun d' hd' ↦ ?_
  cases n with
  | zero => rw [exprUpTo_zero]
  | succ n => rw [exprUpTo, exprWith_of_not_pending (prepare_settles hd')]

/-- Preparation makes progress and completes. As long as a call of an expression is open, there are calls whose
arguments are evaluated or a guarded expression whose deciding operand is. A round evaluates them, which leaves
fewer nodes open. So the loop ends, with what preparation gives, and if that is no error no call is open. A
call that is lowered where it stands is therefore prepared once at most. -/
theorem preparation_completes (l : Lowering) (isExpanded : Bool) (e : Expr) (d : Draft) :
    (d.isPending e = true → (d.ready e).calls ≠ [] ∨ (d.ready e).guarded.isSome) ∧
      (∀ c ∈ (d.ready e).calls, c ∈ d.openNodes e ∧ c.isCall ∧
        ∀ a ∈ c.children, d.isPending a = false) ∧
      (∀ g ∈ (d.ready e).guarded, g ∈ d.openNodes e ∧ g.isGuarded ∧
        ∀ c ∈ g.children.head?, d.isPending c = false) ∧
      (∀ d', l.invoke (l.expansionIn isExpanded) (d.ready e).calls d = .ok d' →
        (∀ c ∈ (d.ready e).calls, d'.isEvaluated c) ∧
          ((d.ready e).calls ≠ [] → (d'.openNodes e).length < (d.openNodes e).length)) ∧
      (∀ g ∈ (d.ready e).guarded, ∀ d',
        l.guarded (l.prepare (l.expansionIn isExpanded)) g d = .ok d' →
          d'.isEvaluated g ∧ (d'.openNodes e).length < (d.openNodes e).length) ∧
      (∀ r, l.Rounds (l.expansionIn isExpanded) e d r ↔
        r = l.prepare (l.expansionIn isExpanded) e d) ∧
      (∀ d', l.prepare (l.expansionIn isExpanded) e d = .ok d' →
        d'.isPending e = false ∧ (e.isCall → d'.isEvaluated e)) ∧
      (d.isPending e = false → ∀ n,
        l.exprUpTo (l.expansionIn isExpanded) n e d = l.expr e d) ∧
      ∀ n, l.exprUpTo (l.expansionIn isExpanded) (n + 1) e d =
        l.exprUpTo (l.expansionIn isExpanded) 1 e d := by
  have hapt := d.apt_ready_open e
  have hlearns := @learns_expansionIn l isExpanded e
  have hcalls := e.callsAmong_append l.program.tree.exprNodes
  refine ⟨fun hp ↦ ?_, fun c hc ↦ ?_, fun g hg ↦ ?_, fun d' hd' ↦ ?_, fun g hg d' hd' ↦ ?_,
    fun r ↦ rounds_iff, fun d' hd' ↦ ?_, fun hp n ↦ ?_, fun n ↦ ?_⟩
  · by_contra hnone
    rw [not_or, not_not, Bool.not_eq_true, Option.isSome_eq_false_iff, Option.isNone_iff_eq_none]
      at hnone
    refine Draft.ready_ne_none hp ?_
    rw [Ready.none, ← hnone.1, ← hnone.2]
  · obtain ⟨hcall, -, hargs⟩ := hapt.calls c hc
    exact ⟨hapt.sub.subset hc, hcall, hargs⟩
  · obtain ⟨hmem, hguarded, -, hdecider⟩ := hapt.guarded g hg
    exact ⟨hmem, hguarded, hdecider⟩
  · exact (invoke_round hlearns hcalls hd').2
  · exact (guarded_round hcalls hg (fun hc _ _ h ↦ learns_prepare hlearns hc h) hd').2
  · have hp := prepare_settles hd'
    refine ⟨hp, fun hcall ↦ ?_⟩
    rw [Draft.isPending_eq, hcall] at hp
    simpa using hp
  · cases n with
    | zero => rw [exprUpTo_zero]
    | succ n => rw [exprUpTo_succ, exprWith_of_not_pending hp]
  · rw [exprUpTo_succ, exprUpTo_succ]

end Lowering

end Fabric
