import Fabric.Proofs.Calls.Graph

namespace Fabric

open Synthesis

namespace Dictionary

variable {α : Type}

/-- A key that has one value in a list has it in the dictionary of the list. -/
theorem get?_ofList {entries : List (String × α)} {k : String} {v : α} (hmem : (k, v) ∈ entries)
    (hval : ∀ x ∈ entries, x.1 = k → x.2 = v) : (ofList entries).get? k = some v := by
  have hfold {d : Dictionary α} (hd : (k, v) ∈ entries ∨ d.get? k = some v) :
      (entries.foldl (fun d e ↦ d.insert e.1 e.2) d).get? k = some v := by
    clear hmem
    induction entries generalizing d with
    | nil =>
      rcases hd with hd | hd
      · cases hd
      · exact hd
    | cons x entries ih =>
      obtain ⟨hx, hval⟩ := List.forall_mem_cons.1 hval
      refine ih hval ?_
      by_cases hk : x.1 = k
      · right
        rw [get?_insert, if_pos hk.symm, hx hk]
      · rcases hd with hd | hd
        · rcases List.mem_cons.1 hd with rfl | hd
          · exact absurd rfl hk
          · exact .inl hd
        · right
          rw [get?_insert, if_neg (Ne.symm hk), hd]
  exact hfold (.inl hmem)

theorem isSome_get? {d : Dictionary α} {x : String × α} (hx : x ∈ d.entries) :
    (d.get? x.1).isSome := by
  rw [Option.isSome_iff_ne_none, get?, ne_eq, List.lookup_eq_none_iff]
  intro hnone
  simpa using hnone x hx

end Dictionary

def Expr.calls (t : SyntaxTree) (h : MemberHandle) : Expr → Bool
  | .call _ target _ => t.resolveCall target = some h
  | _ => false

def Stmt.isParallel : Stmt → Bool
  | .parallel _ _ _ _ _ => true
  | _ => false

theorem foldl_add_replicate (n : Nat) (hn : n < 2 ^ 32) :
    ((List.replicate n (1 : UInt32)).foldl (· + ·) 0).toNat = n := by
  have hfold (n : Nat) (a : UInt32) (h : a.toNat + n < 2 ^ 32) :
      ((List.replicate n (1 : UInt32)).foldl (· + ·) a).toNat = a.toNat + n := by
    induction n generalizing a with
    | zero => rfl
    | succ n ih =>
      have hstep : (a + 1).toNat = a.toNat + 1 := by
        rw [UInt32.toNat_add]
        simp only [UInt32.reduceToNat]
        omega
      rw [List.replicate_succ, List.foldl_cons, ih (a + 1) (by omega), hstep]
      omega
  simpa using hfold n 0 (by simpa using hn)

theorem le_foldl_max {a : UInt32} {as : List UInt32} (h : a ∈ as) : a ≤ as.foldl max 0 := by
  have hmax (b c : UInt32) : b ≤ max b c ∧ c ≤ max b c := by
    have heq : max b c = if b ≤ c then c else b := rfl
    rw [heq]
    split
    next hle => exact ⟨hle, UInt32.le_refl _⟩
    next hle => exact ⟨UInt32.le_refl _, UInt32.le_of_lt (UInt32.not_le.1 hle)⟩
  have hfold (as : List UInt32) (b : UInt32) :
      b ≤ as.foldl max b ∧ ∀ a ∈ as, a ≤ as.foldl max b := by
    induction as generalizing b with
    | nil => exact ⟨UInt32.le_refl _, List.forall_mem_nil _⟩
    | cons c as ih =>
      obtain ⟨hb, has⟩ := ih (max b c)
      exact ⟨UInt32.le_trans (hmax b c).1 hb,
        List.forall_mem_cons.2 ⟨UInt32.le_trans (hmax b c).2 hb, has⟩⟩
  exact (hfold as 0).2 a h

theorem le_largestGroup {sites : List CallSite} {x : CallSite} (hx : x ∈ sites) (c : MemberHandle) :
    groupSize sites x.group c ≤ largestGroup sites c :=
  le_foldl_max (List.mem_map_of_mem hx)

namespace Program

variable {p : Program} {member : String}

structure Counts (p : Program) (group : NodeId) (es : List Expr) (sites : List CallSite) :
    Prop where
  group : ∀ x ∈ sites, x.group = group
  handles : ∀ x ∈ sites, x.callee ∈ p.tree.handles
  sequential : ∀ x ∈ sites, x.isParallel = false
  copies : ∀ h, (sites.filter fun x ↦ x.callee = h).map CallSite.copies =
    List.replicate (es.countP (Expr.calls p.tree h)) 1
  resolved : ∀ e ∈ es, e.isCall → ∃ x ∈ sites, e.calls p.tree x.callee

theorem Counts.append {group : NodeId} {es es' : List Expr} {sites sites' : List CallSite}
    (h : p.Counts group es sites) (h' : p.Counts group es' sites') :
    p.Counts group (es ++ es') (sites ++ sites') where
  group := List.forall_mem_append.2 ⟨h.group, h'.group⟩
  handles := List.forall_mem_append.2 ⟨h.handles, h'.handles⟩
  sequential := List.forall_mem_append.2 ⟨h.sequential, h'.sequential⟩
  copies c := by
    rw [List.filter_append, List.map_append, h.copies, h'.copies, List.countP_append,
      List.replicate_append_replicate]
  resolved := by
    intro e he hcall
    rcases List.mem_append.1 he with he | he
    · obtain ⟨x, hx, hcalls⟩ := h.resolved e he hcall
      exact ⟨x, List.mem_append_left _ hx, hcalls⟩
    · obtain ⟨x, hx, hcalls⟩ := h'.resolved e he hcall
      exact ⟨x, List.mem_append_right _ hx, hcalls⟩

theorem counts_exprSite {group : NodeId} {e : Expr} {sites : List CallSite}
    (hgroup : e.isCall → p.callGroup e.id = some group)
    (h : p.exprSite member (ParentIndex.ofTree p.tree) group e = .ok sites) :
    p.Counts group [e] sites := by
  cases e with
  | call id target args =>
    obtain ⟨c, hc, h⟩ := Synthesis.bind_eq_ok.1 h
    obtain rfl := Except.ok.inj h
    have hresolve := (meets_resolveCallee member target).1 c hc
    have hid : ((ParentIndex.ofTree p.tree).enclosing id .statement).getD group = group := by
      have hfound : (ParentIndex.ofTree p.tree).enclosing id .statement = some group := hgroup rfl
      rw [hfound, Option.getD_some]
    constructor
    · simpa using hid
    · simpa using SyntaxTree.mem_handles_of_resolveCall hresolve
    · simp
    · intro k
      by_cases hk : c = k
      · simp [Expr.calls, hresolve, hk]
      · simp [Expr.calls, hresolve, hk]
    · simp [Expr.calls, hresolve]
  | _ =>
    obtain rfl := Except.ok.inj h
    constructor
    · exact List.forall_mem_nil _
    · exact List.forall_mem_nil _
    · exact List.forall_mem_nil _
    · intro k
      simp [Expr.calls]
    · simp [Expr.isCall]

/-- The sites of a statement that is no parallel invocation are those of its calls. -/
theorem counts_stmtSites {s : Stmt} {sites : List CallSite} (hs : s.isParallel = false)
    (hgroup : ∀ c ∈ s.ownNodes, c.isCall → p.callGroup c.id = some s.id)
    (h : p.stmtSites member (ParentIndex.ofTree p.tree) s = .ok sites) :
    p.Counts s.id s.ownNodes sites := by
  have hexprs {es : List Expr} {sites : List (List CallSite)}
      (hgroup : ∀ c ∈ es, c.isCall → p.callGroup c.id = some s.id)
      (h : List.Forall₂ (fun e x ↦
        p.exprSite member (ParentIndex.ofTree p.tree) s.id e = .ok x) es sites) :
      p.Counts s.id es sites.flatten := by
    induction h with
    | nil =>
      refine ⟨List.forall_mem_nil _, List.forall_mem_nil _, List.forall_mem_nil _, ?_,
        List.forall_mem_nil _⟩
      intro k
      rfl
    | cons he _ ih =>
      obtain ⟨hg, hgroup⟩ := List.forall_mem_cons.1 hgroup
      exact (counts_exprSite hg he).append (ih hgroup)
  have hplain : (do
      let sites ← s.ownNodes.mapM (p.exprSite member (ParentIndex.ofTree p.tree) s.id)
      return sites.flatten : Synthesis (List CallSite)) = .ok sites := by
    cases s with
    | parallel => cases hs
    | _ => exact h
  obtain ⟨lists, hlists, heq⟩ := Synthesis.bind_eq_ok.1 hplain
  obtain rfl := Except.ok.inj heq
  refine hexprs hgroup ((Meets.mapM ?_).1 lists hlists)
  intro e _
  exact (meets_exprSite member s.id e).eq_ok

theorem stmtSites_parallel {id : NodeId} {count : Expr} {index : String} {call : Expr}
    {results : Option String} {sites : List CallSite}
    (h : p.stmtSites member (ParentIndex.ofTree p.tree) (.parallel id count index call results) =
      .ok sites) :
    ∃ copies callId target args c, count.copies = some copies ∧ call = .call callId target args ∧
      (∀ a ∈ args, a.containsCall = false) ∧ p.tree.resolveCall target = some c ∧
      sites = [⟨id, c, copies, true⟩] := by
  rw [stmtSites] at h
  cases hcount : count.copies with
  | none =>
    rw [hcount] at h
    cases h
  | some copies =>
    rw [hcount] at h
    cases call with
    | call callId target args =>
      dsimp only at h
      by_cases hargs : args.any Expr.containsCall = true
      · rw [if_pos hargs] at h
        cases h
      · rw [if_neg hargs] at h
        obtain ⟨c, hc, h⟩ := Synthesis.bind_eq_ok.1 h
        refine ⟨copies, callId, target, args, c, rfl, rfl, ?_,
          (meets_resolveCallee member target).1 c hc, (Except.ok.inj h).symm⟩
        intro a ha
        by_contra hcall
        exact hargs (List.any_eq_true.2 ⟨a, ha, by simpa using hcall⟩)
    | _ => cases h

theorem group_of_stmtSites {s : Stmt} {sites : List CallSite}
    (hgroup : ∀ c ∈ s.ownNodes, c.isCall → p.callGroup c.id = some s.id)
    (h : p.stmtSites member (ParentIndex.ofTree p.tree) s = .ok sites) :
    (∀ x ∈ sites, x.group = s.id) ∧ ∀ x ∈ sites, x.callee ∈ p.tree.handles := by
  by_cases hs : s.isParallel = true
  · cases s with
    | parallel id count index call results =>
      obtain ⟨copies, callId, target, args, c, -, -, -, hresolve, rfl⟩ := stmtSites_parallel h
      exact ⟨List.forall_mem_singleton.2 rfl,
        List.forall_mem_singleton.2 (SyntaxTree.mem_handles_of_resolveCall hresolve)⟩
    | _ => cases hs
  · have hc := counts_stmtSites (by simpa using hs) hgroup h
    exact ⟨hc.group, hc.handles⟩

theorem filter_group {nodes : List Stmt} {sites : List (List CallSite)}
    (hsites : List.Forall₂ (fun t x ↦
      p.stmtSites member (ParentIndex.ofTree p.tree) t = .ok x) nodes sites)
    (hgroup : ∀ t ∈ nodes, ∀ c ∈ t.ownNodes, c.isCall → p.callGroup c.id = some t.id)
    (hn : (nodes.map Stmt.id).Nodup) {t : Stmt} (ht : t ∈ nodes) :
    p.stmtSites member (ParentIndex.ofTree p.tree) t =
      .ok (sites.flatten.filter fun x ↦ x.group = t.id) := by
  have hall {s : Stmt} {xs : List CallSite} (hxs : ∀ x ∈ xs, x.group = s.id) :
      (xs.filter fun x ↦ x.group = s.id) = xs :=
    List.filter_eq_self.2 fun x hx ↦ decide_eq_true (hxs x hx)
  have hnone {s : Stmt} {xs : List CallSite} (hxs : ∀ x ∈ xs, x.group = s.id) (hne : s.id ≠ t.id) :
      (xs.filter fun x ↦ x.group = t.id) = [] := by
    refine List.filter_eq_nil_iff.2 fun x hx hdec ↦ hne ?_
    rw [← hxs x hx, of_decide_eq_true hdec]
  induction hsites with
  | nil => cases ht
  | @cons s xs nodes sites hs hrest ih =>
    obtain ⟨hgs, hothers⟩ := List.forall_mem_cons.1 hgroup
    obtain ⟨hnot, hn⟩ := List.nodup_cons.1 hn
    have hgs := (group_of_stmtSites hgs hs).1
    rw [List.flatten_cons, List.filter_append]
    rcases List.mem_cons.1 ht with rfl | ht
    · have hempty : (sites.flatten.filter fun x ↦ x.group = t.id) = [] := by
        refine List.filter_eq_nil_iff.2 fun x hx hdec ↦ hnot ?_
        obtain ⟨ys, hys, hx⟩ := List.mem_flatten.1 hx
        obtain ⟨u, hu, hsites⟩ := exists_of_mem_forall₂ hrest hys
        rw [← of_decide_eq_true hdec, (group_of_stmtSites (hothers u hu) hsites).1 x hx]
        exact List.mem_map_of_mem hu
      rw [hall hgs, hempty, List.append_nil]
      exact hs
    · have hne : s.id ≠ t.id := by
        intro heq
        exact hnot (heq ▸ List.mem_map_of_mem ht)
      rw [hnone hgs hne, List.nil_append]
      exact ih hothers hn ht

theorem filter_and (sites : List CallSite) (group : NodeId) (h : MemberHandle) :
    (sites.filter fun x ↦ x.group = group ∧ x.callee = h) =
      (sites.filter fun x ↦ x.group = group).filter fun x ↦ x.callee = h := by
  rw [List.filter_filter]
  apply List.filter_congr
  intro x _
  rw [Bool.and_comm, Bool.decide_and]

theorem groupSize_eq {nodes : List Stmt} {sites : List (List CallSite)}
    (hsites : List.Forall₂ (fun t x ↦
      p.stmtSites member (ParentIndex.ofTree p.tree) t = .ok x) nodes sites)
    (hgroup : ∀ t ∈ nodes, ∀ c ∈ t.ownNodes, c.isCall → p.callGroup c.id = some t.id)
    (hn : (nodes.map Stmt.id).Nodup) {t : Stmt} (ht : t ∈ nodes) (hs : t.isParallel = false)
    (hlen : t.ownNodes.length < 2 ^ 32) (h : MemberHandle) :
    (groupSize sites.flatten t.id h).toNat = t.ownNodes.countP (Expr.calls p.tree h) := by
  have hc := counts_stmtSites hs (hgroup t ht) (filter_group hsites hgroup hn ht)
  rw [groupSize, filter_and, hc.copies h]
  exact foldl_add_replicate _ (Nat.lt_of_le_of_lt List.countP_le_length hlen)

theorem groupSize_parallel {nodes : List Stmt} {sites : List (List CallSite)}
    (hsites : List.Forall₂ (fun t x ↦
      p.stmtSites member (ParentIndex.ofTree p.tree) t = .ok x) nodes sites)
    (hgroup : ∀ t ∈ nodes, ∀ c ∈ t.ownNodes, c.isCall → p.callGroup c.id = some t.id)
    (hn : (nodes.map Stmt.id).Nodup) {t : Stmt} (ht : t ∈ nodes) {x : CallSite}
    (hx : p.stmtSites member (ParentIndex.ofTree p.tree) t = .ok [x]) :
    x ∈ sites.flatten ∧ groupSize sites.flatten t.id x.callee = x.copies := by
  have hone := filter_group hsites hgroup hn ht
  rw [hx] at hone
  have hone := (Except.ok.inj hone).symm
  refine ⟨List.mem_of_mem_filter (hone ▸ List.mem_cons_self), ?_⟩
  rw [groupSize, filter_and, hone]
  simp

end Program

end Fabric
