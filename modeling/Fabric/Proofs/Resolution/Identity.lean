import Fabric.Proofs.Synthesis.Planned

namespace Fabric

open scoped List

namespace SyntaxTree

def Owns (t : SyntaxTree) (s : Stmt) (e : Expr) : Prop :=
  ∃ d ∈ t.types, ∃ m ∈ d.methods, ∃ body, m.body = some body ∧ s ∈ body.nodes ∧ e ∈ s.ownNodes

/-- What a tree keeps of the nodes of another one, which are numbered from one on. -/
structure KeepsIdentity (t t' : SyntaxTree) : Prop where
  distinct : t'.ids.Nodup
  known : ∀ id ∈ t'.ids, 1 ≤ id.toNat ∧ id.toNat ≤ t.ids.length
  /-- A node comes before those in it. -/
  ordered : ∀ d ∈ t'.types, ∀ x above, d.Has x above → ∀ y ∈ x.children, x.id < y.id
  roots : ∀ d ∈ t'.types, (ParentIndex.ofTree t').parent? d.id = none
  /-- The walk from a node goes through the nodes around it, and there are no others on its way to
  the type. -/
  ancestors : ∀ d ∈ t'.types, ∀ x above, d.Has x above →
    (ParentIndex.ofTree t').ancestors x.id = above.map Node.id ∧
      (x.id :: (ParentIndex.ofTree t').ancestors x.id).getLast? = some d.id ∧
      (x.kind ≠ .type → (ParentIndex.ofTree t').enclosing x.id .type = some d.id)
  /-- A call belongs to the statement that has the expression in which it stands, and it did so
  before. -/
  groups : ∀ s e target, t'.Owns s e → e.callee? = some target →
    (∀ p : Program, p.tree = t' → p.callGroup e.id = some s.id) ∧
      ∃ s₀ e₀, t.Owns s₀ e₀ ∧ s₀.id = s.id ∧ e₀.id = e.id ∧ e₀.callee? = some target ∧
        ∀ p : Program, p.tree = t → p.callGroup e.id = some s.id

theorem mem_ownedCalls {t : SyntaxTree} {c : OwnedCall} :
    c ∈ t.ownedCalls ↔
      ∃ s e, t.Owns s e ∧ s.id = c.owner ∧ e.id = c.call ∧ e.callee? = some c.target := by
  simp only [ownedCalls, MethodDecl.ownedCalls, List.mem_flatMap, Option.mem_toList,
    Stmt.mem_ownedCalls]
  constructor
  · rintro ⟨d, hd, m, hm, body, hbody, s, hs, howner, e, he, hcall⟩
    exact ⟨s, e, ⟨d, hd, m, hm, body, hbody, hs, he⟩, howner, hcall⟩
  · rintro ⟨s, e, ⟨d, hd, m, hm, body, hbody, hs, he⟩, howner, hcall⟩
    exact ⟨d, hd, m, hm, body, hbody, s, hs, howner, e, he, hcall⟩

theorem Owns.callGroup_eq {p : Program} {s : Stmt} {e : Expr} (h : p.tree.Owns s e)
    (hn : p.tree.ids.Nodup) : p.callGroup e.id = some s.id := by
  obtain ⟨d, hd, m, hm, body, hbody, hs, he⟩ := h
  exact Program.callGroup_eq hn hd hm hbody hs he

theorem pairwise_ids_ofTypes {types : List TypeDecl}
    (hsize : (ofTypes types).ids.length < 2 ^ 32) : (ofTypes types).ids.Pairwise (· < ·) := by
  have hrange : (List.range' 1 (ofTypes types).ids.length).Pairwise (· < ·) :=
    List.pairwise_lt_range'
  rw [← toNat_ids_ofTypes hsize, List.pairwise_map] at hrange
  exact hrange.imp UInt32.lt_iff_toNat_lt.2

theorem lt_of_mem_children {t : SyntaxTree} (ht : t.ids.Pairwise (· < ·)) {d : TypeDecl}
    (hd : d ∈ t.types) {x y : Node} {above : List Node} (hx : d.Has x above) (hy : y ∈ x.children) :
    x.id < y.id := by
  have hsub : x.ids <+ t.ids := ((List.sublist_append_right _ _).trans hx.ids_sublist).trans
    (ParentIndex.sublist_flatMap hd)
  have hsorted := ht.sublist hsub
  rw [x.ids_eq, List.pairwise_cons] at hsorted
  refine hsorted.1 _ (List.mem_flatMap.2 ⟨y, hy, ?_⟩)
  rw [y.ids_eq]
  exact List.mem_cons_self

theorem keepsIdentity_of_derives {types : List TypeDecl} {t' : SyntaxTree}
    (hsize : (ofTypes types).ids.length < 2 ^ 32) (h : (ofTypes types).Derives t') :
    (ofTypes types).KeepsIdentity t' := by
  have hnodup := nodup_ids_ofTypes types hsize.le
  have hnodup' : t'.ids.Nodup := h.ids.nodup hnodup
  refine ⟨hnodup', fun id hid ↦ ?_, fun d hd x above hx y hy ↦ ?_, fun d hd ↦ ?_,
    fun d hd x above hx ↦ ⟨hx.ancestors_eq hnodup' hd, ?_, fun hkind ↦ ?_⟩,
    fun s e target hown htarget ↦ ⟨?_, ?_⟩⟩
  · have hmem := List.mem_map_of_mem (f := UInt32.toNat) (h.ids.subset hid)
    rw [toNat_ids_ofTypes hsize, List.mem_range'_1] at hmem
    omega
  · exact lt_of_mem_children ((pairwise_ids_ofTypes hsize).sublist h.ids) hd hx hy
  · exact TypeDecl.Has.self.parent?_eq hnodup' hd
  · have hlast := congrArg (Option.map Node.id) hx.getLast?_eq
    rw [hx.ancestors_eq hnodup' hd, ← List.map_cons, List.getLast?_map, hlast]
    rfl
  · have hfind := hx.find?_type
    rw [List.find?_cons_of_neg (by simpa using hkind)] at hfind
    rw [hx.enclosing_eq hnodup' hd, hfind]
    rfl
  · rintro p rfl
    exact hown.callGroup_eq hnodup'
  · have hmem : ⟨s.id, e.id, target⟩ ∈ t'.ownedCalls :=
      mem_ownedCalls.2 ⟨s, e, hown, rfl, rfl, htarget⟩
    obtain ⟨s₀, e₀, hown₀, hs, he, htarget₀⟩ := mem_ownedCalls.1 (h.calls.subset hmem)
    refine ⟨s₀, e₀, hown₀, hs, he, htarget₀, fun p hp ↦ ?_⟩
    rw [← hp] at hown₀ hnodup
    have hgroup := hown₀.callGroup_eq hnodup
    rwa [hs, he] at hgroup

/-- The nodes of a tree are numbered from one on in the order of the tree, and as long as there are
fewer nodes than numbers, resolution keeps their identity. -/
theorem keepsIdentity_resolve (types : List TypeDecl) :
    (ofTypes types).ids = (List.range' 1 (ofTypes types).ids.length).map UInt32.ofNat ∧
      ((ofTypes types).ids.length < 2 ^ 32 → ∀ (c : Config) (r : ResolvedTree),
        (ofTypes types).resolve c = .ok r → (ofTypes types).KeepsIdentity r.tree) :=
  ⟨ids_ofTypes types, fun hsize _ _ hr ↦ keepsIdentity_of_derives hsize (derives_resolve hr).1⟩

end SyntaxTree

/-- A member that returns one of two calls under a condition that is known. -/
def chosenCall : List TypeDecl :=
  let ask (x : Expr) : Expr := .call 0 ⟨"Oracle", "Ask", [.i32]⟩ [x]
  let small : Expr := .binary 0 .lt (.literal 0 (.i32 1)) (.literal 0 (.i32 2))
  [{ fullName := "Oracle"
     methods :=
      [{ name := "Choose", parameters := [⟨"a", .i32⟩], returnType := .i32
         body := some (.block 0 [.ret 0 (some (.conditional 0 small (ask (.getParameter 0 "a"))
          (ask (.literal 0 (.i32 7)))))]) },
       { name := "Ask", parameters := [⟨"x", .i32⟩], returnType := .i32
         body := some (.ret 0 (some (.getParameter 0 "x"))) }] }]

/-- The call that is left of `chosenCall` has its number, `9`, and stands where it stood. -/
theorem keepsIdentity_resolve_chosenCall :
    ∃ r, (SyntaxTree.ofTypes chosenCall).resolve { device := "Zynq-7020" } = .ok r ∧
      r.tree.ids = [1, 2, 3, 4, 9, 10, 13, 14, 15] ∧
      (SyntaxTree.ofTypes chosenCall).KeepsIdentity r.tree := by
  have hsize : (SyntaxTree.ofTypes chosenCall).ids.length < 2 ^ 32 := by decide +kernel
  have hids : ((SyntaxTree.ofTypes chosenCall).resolve { device := "Zynq-7020" }).toOption.map
      (fun r ↦ r.tree.ids) = some [1, 2, 3, 4, 9, 10, 13, 14, 15] := by decide +kernel
  cases hr : (SyntaxTree.ofTypes chosenCall).resolve { device := "Zynq-7020" } with
  | error e => rw [hr] at hids; cases hids
  | ok r =>
    rw [hr] at hids
    have hkeeps := (SyntaxTree.keepsIdentity_resolve chosenCall).2 hsize _ r hr
    exact ⟨r, rfl, Option.some.inj hids, hkeeps⟩

end Fabric
