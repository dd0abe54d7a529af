import Fabric.Proofs.Construction.Call
import Fabric.Proofs.Construction.Ledger

namespace Fabric

open Synthesis
open scoped List

theorem countP_lt {α : Type} {p q : α → Bool} {as : List α} (h : ∀ x ∈ as, p x → q x) {a : α}
    (ha : a ∈ as) (hp : p a = false) (hq : q a) : as.countP p < as.countP q := by
  have heq : as.countP p = (as.filter q).countP p := by
    rw [List.countP_filter]
    apply List.countP_congr
    intro x hx
    simpa using h x hx
  rw [heq, List.countP_eq_length_filter (p := q)]
  exact List.countP_lt_length_iff.2 ⟨a, List.mem_filter.2 ⟨ha, hq⟩, hp⟩

theorem Expr.nodes_sublist {e c : Expr} (h : c ∈ e.nodes) : c.nodes <+ e.nodes := by
  induction e using Expr.induction_children with
  | step e ih =>
    rw [e.nodes_eq] at h ⊢
    rcases List.mem_cons.1 h with rfl | h
    · rw [← c.nodes_eq]
    · obtain ⟨x, hx, hc⟩ := List.mem_flatMap.1 h
      exact ((ih x hx hc).trans (ParentIndex.sublist_flatMap hx)).cons _

def Expansion.Consistent (l : Lowering) (expand : Expansion) : Prop :=
  ∀ (h : MemberHandle) (args : List Expr) (d : Draft), l.plan.isInlined h →
    (∀ a ∈ args, d.isPending a = false) → (expand h args d).Meets fun x ↦ d.Spends [] x.2

namespace Draft

structure Takes (key : NodeId × String) (d d' : Draft) : Prop where
  next : d'.nextSlot key = d.nextSlot key + 1
  others : ∀ key', key' ≠ key → d'.nextSlot key' = d.nextSlot key'
  results : d'.results = d.results
  depth : d'.loops.length = d.loops.length

/-- The slots that calls of a statement have taken are those of calls that are evaluated or under
way. -/
def Balanced (l : Lowering) (t : Stmt) (flying : List NodeId) (d : Draft) : Prop :=
  ∀ h ∈ l.program.tree.handles,
    (d.nextSlot (t.id, l.program.tree.memberFullName h)).toNat ≤
      t.ownNodes.countP fun c ↦
        c.calls l.program.tree h && (d.isEvaluated c || flying.contains c.id)

variable {l : Lowering} {t : Stmt} {flying flying' : List NodeId} {d d' d'' : Draft}

theorem Takes.spends {g : NodeId} {callee : String} (h : d.Takes (g, callee) d') :
    d.Spends [g] d' where
  slots key hkey := by
    refine h.others key ?_
    rintro rfl
    exact hkey List.mem_cons_self
  results id hid := by rwa [result?, h.results]
  quiet hnil := by cases hnil
  depth := h.depth

theorem isEvaluated_of_results (h : d'.results = d.results) (e : Expr) :
    d'.isEvaluated e = d.isEvaluated e := by
  rw [isEvaluated, result?, h]
  rfl

theorem Balanced.mono (hb : d.Balanced l t flying)
    (hslots : ∀ callee, d'.nextSlot (t.id, callee) = d.nextSlot (t.id, callee))
    (h : ∀ c ∈ t.ownNodes, d.isEvaluated c ∨ c.id ∈ flying → d'.isEvaluated c ∨ c.id ∈ flying') :
    d'.Balanced l t flying' := by
  intro k hk
  rw [hslots]
  refine Nat.le_trans (hb k hk) (List.countP_mono_left ?_)
  intro c hc hp
  rw [Bool.and_eq_true, Bool.or_eq_true, List.contains_iff_mem] at hp ⊢
  exact ⟨hp.1, h c hc hp.2⟩

theorem Balanced.quiet (hb : d.Balanced l t flying) (h : d.Spends [] d') :
    d'.Balanced l t flying := by
  refine hb.mono (fun callee ↦ h.slots _ List.not_mem_nil) ?_
  intro c _ hc
  exact hc.imp (h.results c.id) id

theorem spends_setResult {groups : List NodeId} (hne : groups ≠ []) (d : Draft) (id : NodeId)
    (v : Option Lowered) : d.Spends groups (d.setResult id v) where
  slots _ _ := rfl
  results id' hid := by
    rw [result?, setResult, List.lookup_cons]
    split
    · rfl
    · exact hid
  quiet hnil := absurd hnil hne
  depth := rfl

theorem isEvaluated_setResult (d : Draft) (e : Expr) (id : NodeId) (v : Option Lowered) :
    (d.setResult id v).isEvaluated e = (e.id == id || d.isEvaluated e) := by
  rw [isEvaluated, result?, setResult, List.lookup_cons]
  cases hid : e.id == id with
  | true => rfl
  | false => rw [Bool.false_or]; rfl

theorem isEvaluated_setResult_self (d : Draft) {e : Expr} {id : NodeId} (h : e.id = id)
    (v : Option Lowered) : (d.setResult id v).isEvaluated e = true := by
  rw [isEvaluated_setResult, h, beq_self_eq_true, Bool.true_or]

theorem Balanced.setResult (hb : d.Balanced l t flying) (id : NodeId) (v : Option Lowered) :
    (d.setResult id v).Balanced l t flying := by
  refine hb.mono (fun _ ↦ rfl) ?_
  intro c _ hc
  rw [isEvaluated_setResult, Bool.or_eq_true]
  exact hc.imp .inr fun hmem ↦ hmem

/-- As long as a call is neither evaluated nor under way, there is a slot for it. -/
theorem Balanced.lt (hb : d.Balanced l t flying) (ha : l.AffordsOwn t)
    (hs : t.isParallel = false) {h : MemberHandle} (hh : h ∈ l.program.tree.handles)
    (hin : l.plan.isInlined h = false) {e : Expr} (he : e ∈ t.ownNodes)
    (hcalls : e.calls l.program.tree h) (hev : d.isEvaluated e = false) (hfly : e.id ∉ flying) :
    d.nextSlot (t.id, l.program.tree.memberFullName h) < l.slotsFor h := by
  rw [UInt32.lt_iff_toNat_lt]
  refine Nat.lt_of_le_of_lt (hb h hh) (Nat.lt_of_lt_of_le ?_ (ha.calls hs h hh hin))
  refine countP_lt (fun c _ hc ↦ (Bool.and_eq_true _ _ ▸ hc).1) he ?_ hcalls
  simp [hev, hfly]

/-- A call that takes its slot is under way. -/
theorem Balanced.take (hb : d.Balanced l t flying) (hnames : l.program.NamesDistinct)
    {h : MemberHandle} (hh : h ∈ l.program.tree.handles)
    (hlt : d.nextSlot (t.id, l.program.tree.memberFullName h) < l.slotsFor h) {e : Expr}
    (he : e ∈ t.ownNodes) (hcalls : e.calls l.program.tree h) (hev : d.isEvaluated e = false)
    (hfly : e.id ∉ flying)
    (htake : d.Takes (t.id, l.program.tree.memberFullName h) d') :
    d'.Balanced l t (e.id :: flying) := by
  intro k hk
  have hmono (c : Expr) (hc : c.calls l.program.tree k && (d.isEvaluated c || flying.contains c.id)) :
      c.calls l.program.tree k && (d'.isEvaluated c || (e.id :: flying).contains c.id) := by
    rw [Bool.and_eq_true, Bool.or_eq_true, List.contains_iff_mem] at hc ⊢
    rw [isEvaluated_of_results htake.results]
    exact ⟨hc.1, hc.2.imp id (List.mem_cons_of_mem _)⟩
  by_cases hkh : k = h
  · subst hkh
    have hcount := countP_lt (fun c _ ↦ hmono c) he (by simp [hev, hfly]) (by simp [hcalls])
    have hle := hb k hh
    have hbound := (l.slotsFor k).toNat_lt
    rw [UInt32.lt_iff_toNat_lt] at hlt
    rw [htake.next, UInt32.toNat_add]
    simp only [UInt32.reduceToNat]
    omega
  · have hother := htake.others (t.id, l.program.tree.memberFullName k) ?_
    · rw [hother]
      exact Nat.le_trans (hb k hk) (List.countP_mono_left fun c _ ↦ hmono c)
    · intro heq
      exact hkh (hnames.inj hk hh (Prod.mk.inj heq).2)

end Draft

namespace Lowering

variable {l : Lowering} {expand : Expansion} {t : Stmt} {d : Draft}

theorem meets_takeSlot {h : MemberHandle} {group : NodeId}
    (hlt : d.nextSlot (group, l.program.tree.memberFullName h) < l.slotsFor h) :
    (l.takeSlot group (l.program.tree.memberFullName h) d).Meets
      fun x ↦ d.Takes (group, l.program.tree.memberFullName h) x.2 := by
  unfold takeSlot
  dsimp only
  split
  next hle => exact absurd hle (UInt32.not_le.2 hlt)
  next =>
    refine meets_ok ⟨?_, ?_, rfl, rfl⟩
    · rw [nextSlot_cons, if_pos rfl]
      rfl
    · intro key hkey
      rw [nextSlot_cons, if_neg hkey]

theorem meets_invocation {h : MemberHandle} {group : NodeId} {args : List Expr}
    (hlt : d.nextSlot (group, l.program.tree.memberFullName h) < l.slotsFor h)
    (hargs : ∀ a ∈ args, d.isPending a = false) :
    (l.invocation h group args d).Meets
      fun x ↦ d.Takes (group, l.program.tree.memberFullName h) x.2 := by
  refine (meets_takeSlot hlt).bind ?_
  rintro ⟨slot, d₁⟩ htake
  have hpending : ∀ a ∈ args, d₁.isPending a = false :=
    fun a ha ↦ htake.spends.isPending (hargs a ha)
  refine (l.meets_arguments h hpending).bind ?_
  rintro ⟨arguments, d₂⟩ hd₂
  have hsettle := hd₂.trans (Draft.spends_settleArguments
    (l.program.tree.memberFullName h) arguments d₂)
  refine (meets_checkArguments arguments).bind fun _ _ ↦ ?_
  refine (l.meets_resultType h).bind ?_
  intro type _
  refine meets_ok ⟨?_, ?_, (hsettle.quiet rfl).trans htake.results,
    hsettle.depth.trans htake.depth⟩
  · exact (hsettle.slots _ List.not_mem_nil).trans htake.next
  · intro key hkey
    exact (hsettle.slots _ List.not_mem_nil).trans (htake.others key hkey)

structure Issuable (t : Stmt) (d : Draft) (calls : List Expr) : Prop where
  own : ∀ c ∈ calls, c ∈ t.ownNodes
  isCall : ∀ c ∈ calls, c.isCall
  unevaluated : ∀ c ∈ calls, d.isEvaluated c = false
  arguments : ∀ c ∈ calls, ∀ a ∈ c.children, d.isPending a = false
  distinct : (calls.map Expr.id).Nodup

theorem Issuable.tail {e : Expr} {calls : List Expr} {d' : Draft} (h : Issuable t d (e :: calls))
    (hkept : ∀ id, (d.result? id).isSome → (d'.result? id).isSome)
    (hnew : ∀ c, d'.isEvaluated c → c.id = e.id ∨ d.isEvaluated c) : Issuable t d' calls where
  own c hc := h.own c (List.mem_cons_of_mem _ hc)
  isCall c hc := h.isCall c (List.mem_cons_of_mem _ hc)
  unevaluated c hc := by
    by_contra hev
    have hnodup := (List.nodup_cons.1 h.distinct).1
    rcases hnew c (by simpa using hev) with hid | hold
    · exact hnodup (hid ▸ List.mem_map_of_mem hc)
    · rw [h.unevaluated c (List.mem_cons_of_mem _ hc)] at hold
      cases hold
  arguments c hc a ha :=
    Draft.isPending_mono hkept (h.arguments c (List.mem_cons_of_mem _ hc) a ha)
  distinct := (List.nodup_cons.1 h.distinct).2

theorem meets_callee {e : Expr} (he : e.isCall) :
    (l.callee e).Meets fun x ↦ x.1 ∈ l.program.tree.handles ∧ e.calls l.program.tree x.1 ∧
      x.2 = e.children := by
  cases e with
  | call id target args =>
    refine (l.meets_require _ _).bind ?_
    intro h hh
    refine meets_ok ⟨SyntaxTree.mem_handles_of_resolveCall hh, ?_, rfl⟩
    simp [Expr.calls, hh]
  | _ => cases he

theorem meets_gather (ha : l.AffordsOwn t) (hs : t.isParallel = false)
    (hnames : l.program.NamesDistinct) (hexpand : expand.Consistent l) {calls : List Expr}
    {flying : List NodeId} (hcalls : Issuable t d calls) (hfly : ∀ c ∈ calls, c.id ∉ flying)
    (hb : d.Balanced l t flying) :
    (l.gather expand calls d).Meets fun x ↦
      x.2.Balanced l t (x.1.map Prod.fst ++ flying) ∧ d.Spends [t.id] x.2 ∧
        ∀ c ∈ calls, x.2.isEvaluated c ∨ c.id ∈ x.1.map Prod.fst := by
  induction calls generalizing d flying with
  | nil => exact meets_ok ⟨hb, .refl d, List.forall_mem_nil _⟩
  | cons e rest ih =>
    obtain ⟨hflye, hflyrest⟩ := List.forall_mem_cons.1 hfly
    have hown := hcalls.own e List.mem_cons_self
    have hcall := hcalls.isCall e List.mem_cons_self
    have hev := hcalls.unevaluated e List.mem_cons_self
    have hdistinct := (List.nodup_cons.1 hcalls.distinct).1
    unfold gather
    refine (meets_callee hcall).bind ?_
    rintro ⟨h, args⟩ ⟨hh, hcallsh, rfl⟩
    have hargs := hcalls.arguments e List.mem_cons_self
    dsimp only
    cases hin : l.plan.isInlined h with
    | true =>
      rw [if_pos rfl]
      refine (hexpand h _ d hin hargs).bind ?_
      rintro ⟨v, d₁⟩ hd₁
      have hset := d₁.spends_setResult (List.cons_ne_nil t.id []) e.id v
      have hrest : Issuable t (d₁.setResult e.id v) rest := by
        refine hcalls.tail (fun id hid ↦ hset.results id (hd₁.results id hid)) ?_
        intro c hc
        rw [Draft.isEvaluated_setResult, Draft.isEvaluated_of_results (hd₁.quiet rfl),
          Bool.or_eq_true, beq_iff_eq] at hc
        exact hc
      refine (ih hrest hflyrest ((hb.quiet hd₁).setResult e.id v)).mono ?_
      rintro ⟨batch, d₂⟩ ⟨hb₂, hd₂, hdone⟩
      refine ⟨hb₂, ((hd₁.mono (List.nil_subset _)).trans hset).trans hd₂, ?_⟩
      exact List.forall_mem_cons.2
        ⟨.inl (hd₂.results e.id (d₁.isEvaluated_setResult_self rfl v)), hdone⟩
    | false =>
      rw [if_neg Bool.false_ne_true, ha.grouped e hown hcall]
      have hlt := hb.lt ha hs hh hin hown hcallsh hev hflye
      refine (meets_invocation hlt hargs).bind ?_
      rintro ⟨call, d₁⟩ htake
      have hb₁ := hb.take hnames hh hlt hown hcallsh hev hflye htake
      have hrest : Issuable t d₁ rest := by
        refine hcalls.tail (fun id hid ↦ htake.spends.results id hid) ?_
        intro c hc
        rw [Draft.isEvaluated_of_results htake.results] at hc
        exact .inr hc
      refine (ih hrest ?_ hb₁).bind ?_
      · intro c hc hmem
        rcases List.mem_cons.1 hmem with hid | hmem
        · exact hdistinct (hid ▸ List.mem_map_of_mem hc)
        · exact hflyrest c hc hmem
      · rintro ⟨batch, d₂⟩ ⟨hb₂, hd₂, hdone⟩
        refine meets_ok ⟨?_, htake.spends.trans hd₂, ?_⟩
        · refine hb₂.mono (fun _ ↦ rfl) ?_
          intro c _ hc
          refine hc.imp id fun hmem ↦ ?_
          simp only [List.mem_append, List.mem_cons, List.map_cons] at hmem ⊢
          exact or_assoc.2 (or_left_comm.1 hmem)
        · refine List.forall_mem_cons.2 ⟨.inr List.mem_cons_self, fun c hc ↦ ?_⟩
          exact (hdone c hc).imp id (List.mem_cons_of_mem _)

/-- Results are set for as many calls as have one. -/
theorem setResults_spec (pairs : List (NodeId × Option Lowered)) {flying : List NodeId}
    (hb : d.Balanced l t flying) :
    (pairs.foldl (fun d x ↦ d.setResult x.1 x.2) d).Balanced l t flying ∧
      d.Spends [t.id] (pairs.foldl (fun d x ↦ d.setResult x.1 x.2) d) ∧
      ∀ e : Expr, e.id ∈ pairs.map Prod.fst →
        (pairs.foldl (fun d x ↦ d.setResult x.1 x.2) d).isEvaluated e := by
  induction pairs generalizing d with
  | nil => exact ⟨hb, .refl d, fun e he ↦ absurd he List.not_mem_nil⟩
  | cons x rest ih =>
    obtain ⟨hb', hd', hall⟩ := ih (hb.setResult x.1 x.2)
    have hset := d.spends_setResult (List.cons_ne_nil t.id []) x.1 x.2
    refine ⟨hb', hset.trans hd', fun e he ↦ ?_⟩
    rcases List.mem_cons.1 he with hid | he
    · exact hd'.results e.id (d.isEvaluated_setResult_self hid x.2)
    · exact hall e he

theorem meets_invoke (ha : l.AffordsOwn t) (hs : t.isParallel = false)
    (hnames : l.program.NamesDistinct) (hexpand : expand.Consistent l) {calls : List Expr}
    (hcalls : Issuable t d calls) (hb : d.Balanced l t []) :
    (l.invoke expand calls d).Meets fun d' ↦
      d'.Balanced l t [] ∧ d.Spends [t.id] d' ∧ ∀ c ∈ calls, d'.isEvaluated c := by
  unfold invoke
  refine (meets_gather ha hs hnames hexpand hcalls (fun _ _ ↦ List.not_mem_nil) hb).bind ?_
  rintro ⟨batch, d₁⟩ ⟨hb₁, hd₁, hdone⟩
  rw [List.append_nil] at hb₁
  dsimp only
  split
  next hempty =>
    obtain rfl := List.isEmpty_iff.1 hempty
    refine meets_ok ⟨hb₁, hd₁, fun c hc ↦ ?_⟩
    exact (hdone c hc).resolve_right List.not_mem_nil
  next =>
    let x := d₁.handshake (batch.map Prod.snd)
    have hx : d₁.Spends [] x.2 := d₁.spends_handshake _
    let pairs := (batch.map Prod.fst).zip x.1
    have hfst : pairs.map Prod.fst = batch.map Prod.fst := by
      refine List.map_fst_zip ?_
      rw [Draft.length_handshake, List.length_map, List.length_map]
    obtain ⟨hb₂, hd₂, hall⟩ := setResults_spec pairs (hb₁.quiet hx)
    rw [hfst] at hall
    have hd := hd₁.trans ((hx.mono (List.nil_subset _)).trans hd₂)
    -- All calls that were under way are evaluated now.
    refine meets_ok ⟨hb₂.mono (fun _ ↦ rfl) ?_, hd, ?_⟩
    · intro c _ hc
      rcases hc with hc | hc
      · exact .inl hc
      · exact .inl (hall c hc)
    · intro c hc
      rcases hdone c hc with hev | hmem
      · exact ((hx.mono (List.nil_subset _)).trans hd₂).results c.id hev
      · exact hall c hmem

end Lowering

end Fabric
