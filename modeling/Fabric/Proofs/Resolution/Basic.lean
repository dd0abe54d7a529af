import Fabric.Proofs.Syntax.Simplification

namespace Fabric

open scoped List

theorem mapCount_fst {α : Type} (f : α → α × Nat) (as : List α) :
    (mapCount f as).1 = as.map fun a ↦ (f a).1 := by
  induction as with
  | nil => rfl
  | cons a as ih => rw [mapCount, List.map_cons, ← ih]

def MethodDecl.ownedCalls (m : MethodDecl) : List OwnedCall :=
  m.body.toList.flatMap Stmt.ownedCalls

namespace SyntaxTree

def memberNames (t : SyntaxTree) : List String :=
  t.types.flatMap fun d ↦ d.methods.map d.memberFullName

def ownedCalls (t : SyntaxTree) : List OwnedCall :=
  t.types.flatMap fun d ↦ d.methods.flatMap MethodDecl.ownedCalls

/-- A tree that has the names of another one, no new numbers, and no calls moved to another
statement. -/
structure Derives (t t' : SyntaxTree) : Prop where
  ids : t'.ids <+ t.ids
  names : t'.memberNames = t.memberNames
  calls : t'.ownedCalls <+ t.ownedCalls

namespace Derives

variable {t t' t'' : SyntaxTree}

theorem refl (t : SyntaxTree) : Derives t t := ⟨List.Sublist.refl _, rfl, List.Sublist.refl _⟩

theorem trans (h : Derives t t') (h' : Derives t' t'') : Derives t t'' :=
  ⟨h'.ids.trans h.ids, h'.names.trans h.names, h'.calls.trans h.calls⟩

end Derives

theorem derives_mapTypes {t : SyntaxTree} {f : TypeDecl → TypeDecl × Nat}
    (hids : ∀ d, (f d).1.ids <+ d.ids)
    (hnames : ∀ d, (f d).1.methods.map (f d).1.memberFullName = d.methods.map d.memberFullName)
    (hcalls : ∀ d, (f d).1.methods.flatMap MethodDecl.ownedCalls <+
      d.methods.flatMap MethodDecl.ownedCalls) :
    t.Derives ⟨(mapCount f t.types).1⟩ where
  ids := by
    rw [SyntaxTree.ids, mapCount_fst]
    exact sublist_flatMap_map fun d _ ↦ hids d
  names := by
    rw [memberNames, mapCount_fst, List.flatMap_map, memberNames]
    simp only [hnames]
  calls := by
    rw [ownedCalls, mapCount_fst]
    exact sublist_flatMap_map fun d _ ↦ hcalls d

theorem derives_mapInitializers {t : SyntaxTree} {f : Expr → Expr × Nat}
    (hf : ∀ e, (f e).1.ids <+ e.ids) : t.Derives (t.mapInitializers f).1 := by
  refine derives_mapTypes (fun d ↦ ?_) (fun d ↦ rfl) fun d ↦ List.Sublist.refl _
  refine (List.Sublist.append ?_ (List.Sublist.refl _)).cons_cons _
  dsimp only
  rw [mapCount_fst]
  refine sublist_flatMap_map fun field _ ↦ ?_
  cases hi : field.initializer with
  | none => exact List.Sublist.refl _
  | some e =>
    unfold FieldDecl.ids
    rw [hi]
    simpa using hf e

theorem derives_mapBodies {t : SyntaxTree} {f : String → Stmt → Stmt × Nat}
    (hids : ∀ name s, (f name s).1.ids <+ s.ids)
    (hcalls : ∀ name s, (f name s).1.ownedCalls <+ s.ownedCalls) :
    t.Derives (t.mapBodies f).1 := by
  refine derives_mapTypes (fun d ↦ ?_) (fun d ↦ ?_) fun d ↦ ?_
  · refine (List.Sublist.append (List.Sublist.refl _) ?_).cons_cons _
    dsimp only
    rw [mapCount_fst]
    refine sublist_flatMap_map fun m _ ↦ ?_
    cases hb : m.body with
    | none => exact List.Sublist.refl _
    | some s =>
      unfold MethodDecl.ids
      rw [hb]
      simpa using hids (d.memberFullName m) s
  · dsimp only
    rw [mapCount_fst, List.map_map]
    refine List.map_congr_left fun m _ ↦ ?_
    rw [Function.comp_apply]
    split <;> rfl
  · dsimp only
    rw [mapCount_fst]
    refine sublist_flatMap_map fun m _ ↦ ?_
    cases hb : m.body with
    | none => exact List.Sublist.refl _
    | some s =>
      unfold MethodDecl.ownedCalls
      rw [hb]
      simpa using hcalls (d.memberFullName m) s

/-- What folding all initializers once preserves holds after every number of times. -/
theorem foldInitializers_induction {P : SyntaxTree → Prop}
    (hstep : ∀ t : SyntaxTree, P t → P (t.mapInitializers fun e ↦
      e.simplify (Expr.foldStep t.constantFields [])).1)
    (fuel : Nat) {t : SyntaxTree} (ht : P t) : P (foldInitializers fuel t).1 := by
  induction fuel generalizing t with
  | zero => exact ht
  | succ fuel ih =>
    unfold foldInitializers
    dsimp only
    split
    · exact hstep t ht
    · exact ih (hstep t ht)

theorem derives_foldInitializers (fuel : Nat) (t : SyntaxTree) :
    t.Derives (foldInitializers fuel t).1 := by
  refine foldInitializers_induction (fun t' ht' ↦ ht'.trans ?_) fuel (.refl t)
  exact derives_mapInitializers fun e ↦ e.ids_simplify (Expr.keepsMarks_foldStep _ _)

theorem foldRounds_keeps (fields : Constants) (fuel : Nat) (s : Stmt) :
    (s.foldRounds fields fuel).1.ids <+ s.ids ∧
      (s.foldRounds fields fuel).1.ownedCalls <+ s.ownedCalls := by
  induction fuel generalizing s with
  | zero => exact ⟨List.Sublist.refl _, List.Sublist.refl _⟩
  | succ fuel ih =>
    have hkeeps := Expr.keepsMarks_foldStep fields s.constantLocals
    unfold Stmt.foldRounds
    dsimp only
    split
    · exact ⟨s.ids_simplify hkeeps, s.ownedCalls_simplify hkeeps⟩
    · exact ⟨(ih _).1.trans (s.ids_simplify hkeeps), (ih _).2.trans (s.ownedCalls_simplify hkeeps)⟩

theorem derives_foldConstants (t : SyntaxTree) : t.Derives t.foldConstants.1 := by
  let t' := (foldInitializers (t.initializerNodes.length + 1) t).1
  have hrounds (s : Stmt) := foldRounds_keeps t'.constantFields (s.exprNodes.length + 1) s
  have hbodies : t'.Derives (t'.mapBodies fun _ body ↦ body.fold t'.constantFields).1 :=
    derives_mapBodies (fun _ s ↦ (hrounds s).1) fun _ s ↦ (hrounds s).2
  exact (derives_foldInitializers _ t).trans hbodies

theorem fold_eq_ok {t : SyntaxTree} {r : SyntaxTree × Nat} :
    t.fold = .ok r ↔ t.foldFault? = none ∧ r = t.foldConstants := by
  unfold fold
  cases t.foldFault? with
  | some fault => simp
  | none => simp [eq_comm]

theorem derives_foldArrayLengths (t : SyntaxTree) (table : ArrayTable) :
    t.Derives (t.foldArrayLengths table).1 :=
  derives_mapBodies (fun _ s ↦ s.ids_simplify (keepsMarks_foldLengthStep _))
    fun _ s ↦ s.ownedCalls_simplify (keepsMarks_foldLengthStep _)

end SyntaxTree

namespace ResolvedTree

/-- One round of resolution, with the number of changes. -/
def round (r : ResolvedTree) : Except ResolveError (ResolvedTree × Nat) := do
  let (tree, folded) ← r.tree.fold.mapError .fault
  let (inferred, arrays) := tree.inferLengths r.arrays
  let inferred ← inferred
  let (tree, lengths) := tree.foldArrayLengths arrays
  .ok (⟨tree, arrays⟩, folded + inferred + lengths)

theorem rounds_succ (fuel : Nat) (r : ResolvedTree) : rounds (fuel + 1) r =
    r.round.bind fun p ↦ if p.2 = 0 then .ok p.1 else rounds fuel p.1 := by
  rw [rounds]
  unfold round
  cases r.tree.fold with
  | error fault => rfl
  | ok p =>
    change (p.1.inferLengths r.arrays).1.bind _ = ((p.1.inferLengths r.arrays).1.bind _).bind _
    cases (p.1.inferLengths r.arrays).1 <;> rfl

/-- A round folds, infers lengths, and folds the lengths; the first two may fail. -/
theorem round_cases {r r' : ResolvedTree} {n : Nat} (h : r.round = .ok (r', n)) :
    r.tree.fold = .ok r.tree.foldConstants ∧ ∃ inferred,
      r.tree.foldConstants.1.inferLengths r.arrays = (.ok inferred, r'.arrays) ∧
        r'.tree = (r.tree.foldConstants.1.foldArrayLengths r'.arrays).1 ∧
          n = r.tree.foldConstants.2 + inferred +
            (r.tree.foldConstants.1.foldArrayLengths r'.arrays).2 := by
  unfold round at h
  cases hfold : r.tree.fold with
  | error fault => rw [hfold] at h; cases h
  | ok p =>
    obtain rfl := (SyntaxTree.fold_eq_ok.1 hfold).2
    rw [hfold] at h
    refine ⟨rfl, ?_⟩
    change (r.tree.foldConstants.1.inferLengths r.arrays).1.bind _ = _ at h
    cases hinferred : (r.tree.foldConstants.1.inferLengths r.arrays).1 with
    | error e => rw [hinferred] at h; cases h
    | ok inferred =>
      rw [hinferred] at h
      obtain ⟨rfl, rfl⟩ := Prod.mk.inj (Except.ok.inj h)
      exact ⟨inferred, Prod.ext hinferred rfl, rfl, rfl⟩

theorem rounds_induction {P : ResolvedTree → Prop}
    (hround : ∀ (r : ResolvedTree) (n : Nat) (arrays : ArrayTable), P r →
      r.tree.foldConstants.1.inferLengths r.arrays = (.ok n, arrays) →
        P ⟨(r.tree.foldConstants.1.foldArrayLengths arrays).1, arrays⟩)
    {fuel : Nat} {r r' : ResolvedTree} (hr : P r) (h : rounds fuel r = .ok r') : P r' := by
  induction fuel generalizing r with
  | zero =>
    obtain rfl := Except.ok.inj h
    exact hr
  | succ fuel ih =>
    rw [rounds_succ] at h
    cases hp : r.round with
    | error e => rw [hp] at h; cases h
    | ok p =>
      obtain ⟨next, n⟩ := p
      obtain ⟨-, inferred, hinferred, htree, -⟩ := round_cases hp
      have hnext : P next := by
        have h := hround r inferred next.arrays hr hinferred
        rwa [← htree] at h
      rw [hp] at h
      change (if n = 0 then Except.ok next else rounds fuel next) = _ at h
      split at h
      · exact Except.ok.inj h ▸ hnext
      · exact ih hnext h

theorem derives_rounds {fuel : Nat} {r r' : ResolvedTree}
    (h : rounds fuel r = .ok r') : r.tree.Derives r'.tree := by
  refine rounds_induction (P := fun r' ↦ r.tree.Derives r'.tree) (fun r' _ arrays hr _ ↦ ?_)
    (.refl _) h
  exact hr.trans (r'.tree.derives_foldConstants.trans (SyntaxTree.derives_foldArrayLengths _ arrays))

end ResolvedTree

namespace SyntaxTree

theorem nodup_of_firstRepeated {seen names : List String} (h : firstRepeated seen names = none) :
    names.Nodup ∧ ∀ x ∈ names, x ∉ seen := by
  induction names generalizing seen with
  | nil => exact ⟨List.nodup_nil, nofun⟩
  | cons x rest ih =>
    unfold firstRepeated at h
    split at h
    · exact nomatch h
    next hx =>
      obtain ⟨hnodup, hout⟩ := ih h
      refine ⟨List.nodup_cons.2 ⟨fun hmem ↦ hout x hmem List.mem_cons_self, hnodup⟩, ?_⟩
      refine List.forall_mem_cons.2 ⟨by simpa using hx, fun y hy hmem ↦ ?_⟩
      exact hout y hy (List.mem_cons_of_mem _ hmem)

theorem nodup_of_checkTypes {types members : List String} {ds : List TypeDecl}
    (h : checkTypes types members ds = .ok ()) :
    (ds.flatMap fun d ↦ d.methods.map d.memberFullName).Nodup ∧
      ∀ x ∈ ds.flatMap fun d ↦ d.methods.map d.memberFullName, x ∉ members := by
  induction ds generalizing types members with
  | nil => exact ⟨List.nodup_nil, nofun⟩
  | cons d ds ih =>
    unfold checkTypes at h
    split at h
    · exact nomatch h
    · dsimp only at h
      split at h
      · exact nomatch h
      next hnames =>
        obtain ⟨hnodup, hout⟩ := nodup_of_firstRepeated hnames
        obtain ⟨hrest, houtrest⟩ := ih h
        rw [List.flatMap_cons]
        refine ⟨List.nodup_append.2 ⟨hnodup, hrest, fun x hx y hy heq ↦ ?_⟩,
          List.forall_mem_append.2 ⟨hout, fun x hx hmem ↦ ?_⟩⟩
        · exact houtrest y hy (List.mem_append_left _ (heq ▸ hx))
        · exact houtrest x hx (List.mem_append_right _ hmem)

/-- Resolution keeps the names, which are different, and only drops numbers. -/
theorem derives_resolve {t : SyntaxTree} {c : Config} {r : ResolvedTree}
    (h : t.resolve c = .ok r) : t.Derives r.tree ∧ r.tree.memberNames.Nodup := by
  unfold resolve at h
  split at h
  · exact nomatch h
  next hcheck =>
    have hd := ResolvedTree.derives_rounds h
    exact ⟨hd, hd.names ▸ (nodup_of_checkTypes hcheck).1⟩

end SyntaxTree

end Fabric
