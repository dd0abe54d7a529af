import Fabric.Proofs.Resolution.ArrayKeys
import Mathlib.Data.Finset.Card

namespace Fabric

namespace ArrayTable

def missing (table : ArrayTable) (arrays : List String) : Nat :=
  (arrays.toFinset.filter fun a ↦ table.entry? a = none).card

section

variable {table table' : ArrayTable} {arrays : List String} {array : String} {length : UInt32}

theorem missing_le_length (table : ArrayTable) (arrays : List String) :
    table.missing arrays ≤ arrays.length :=
  Nat.le_trans (Finset.card_filter_le _ _) (List.toFinset_card_le _)

theorem missing_record (h : table.record array length = .ok (some table')) (hmem : array ∈ arrays) :
    table'.missing arrays + 1 ≤ table.missing arrays := by
  unfold record at h
  split at h
  next hnone =>
    obtain rfl := Option.some.inj (Except.ok.inj h)
    refine Finset.card_lt_card ((Finset.ssubset_iff_of_subset fun a ha ↦ ?_).2 ⟨array, ?_, ?_⟩)
    · obtain ⟨ha, hentry⟩ := Finset.mem_filter.1 ha
      refine Finset.mem_filter.2 ⟨ha, ?_⟩
      unfold entry? at hentry
      rw [Dictionary.get?_insert] at hentry
      split at hentry
      · cases hentry
      · exact hentry
    · exact Finset.mem_filter.2 ⟨List.mem_toFinset.2 hmem, hnone⟩
    · rw [Finset.mem_filter, entry?, Dictionary.get?_insert, if_pos rfl]
      exact fun h ↦ nomatch h.2
  next =>
    split at h
    · cases h
    · cases h

theorem missing_recordAll {found : List (String × UInt32)} {n : Nat}
    (h : table.recordAll found = (.ok n, table')) (hmem : ∀ p ∈ found, p.1 ∈ arrays) :
    table'.missing arrays + n ≤ table.missing arrays ∧ (n = 0 → table' = table) := by
  induction found generalizing table n with
  | nil =>
    obtain ⟨hn, rfl⟩ := Prod.mk.inj h
    exact ⟨by rw [← Except.ok.inj hn]; exact Nat.le_refl _, fun _ ↦ rfl⟩
  | cons p rest ih =>
    obtain ⟨array, length⟩ := p
    obtain ⟨harray, hrest⟩ := List.forall_mem_cons.1 hmem
    unfold recordAll at h
    cases hrecord : table.record array length with
    | error e => rw [hrecord] at h; cases h
    | ok o =>
      rw [hrecord] at h
      cases o with
      | none => exact ih h hrest
      | some next =>
        have hnext := missing_record hrecord harray
        dsimp only at h
        obtain ⟨hcount, htable⟩ := Prod.mk.inj h
        obtain ⟨k, hk, rfl⟩ : ∃ k, (recordAll rest next).1 = .ok k ∧ k + 1 = n := by
          cases hk : (recordAll rest next).1 with
          | error e => rw [hk] at hcount; cases hcount
          | ok k => rw [hk] at hcount; exact ⟨k, rfl, Except.ok.inj hcount⟩
        have hless := (ih (Prod.ext hk htable) hrest).1
        exact ⟨by omega, by omega⟩

end

end ArrayTable

namespace SyntaxTree

variable {t : SyntaxTree} {table table' : ArrayTable}

theorem missing_inferLengths {arrays : List String} {n : Nat} (hsub : t.arrayKeys ⊆ arrays)
    (h : t.inferLengths table = (.ok n, table')) :
    table'.missing arrays + n ≤ table.missing arrays ∧ (n = 0 → table' = table) :=
  ArrayTable.missing_recordAll h fun _ hp ↦ hsub (key_of_observed hp)

theorem openNodes_foldArrayLengths (t : SyntaxTree) (table : ArrayTable) :
    (t.foldArrayLengths table).1.openNodes + (t.foldArrayLengths table).2 ≤ t.openNodes := by
  have hbodies := openBodies_mapBodies (t := t) (f := fun member s ↦
    s.simplify (foldLengthStep ⟨t, table, member⟩)) fun _ s ↦
      s.openNodes_simplify (reduces_foldLengthStep _)
  have hsame := openInitializers_mapBodies (t := t) fun member s ↦
    s.simplify (foldLengthStep ⟨t, table, member⟩)
  unfold openNodes foldArrayLengths
  omega

theorem foldArrayLengths_of_zero (h : (t.foldArrayLengths table).2 = 0) :
    (t.foldArrayLengths table).1 = t :=
  mapBodies_of_zero (fun _ s ↦ s.simplify_of_zero) h

theorem openNodes_le_bodySize (t : SyntaxTree) : t.openNodes ≤ t.bodySize := by
  have hbodies : t.openBodies ≤ (t.bodies.flatMap Stmt.exprNodes).length := by
    rw [openBodies, bodies, List.flatMap_assoc, List.length_flatMap]
    refine List.sum_le_sum fun d _ ↦ ?_
    rw [TypeDecl.openBodies, List.filterMap_eq_flatMap_toList, List.flatMap_assoc,
      List.length_flatMap]
    refine List.sum_le_sum fun m _ ↦ ?_
    rw [List.length_flatMap]
    exact List.sum_le_sum fun s _ ↦ List.countP_le_length
  have hinitializers := t.openInitializers_le_length
  unfold openNodes bodySize
  omega

end SyntaxTree

namespace ResolvedTree

def remaining (arrays : List String) (r : ResolvedTree) : Nat :=
  r.tree.openNodes + r.arrays.missing arrays

/-- Every pass leaves the tree and the lengths as they are. -/
structure Settled (r : ResolvedTree) : Prop where
  constants : r.tree.fold = .ok (r.tree, 0)
  lengths : r.tree.inferLengths r.arrays = (.ok 0, r.arrays)
  reads : r.tree.foldArrayLengths r.arrays = (r.tree, 0)

variable {r r' : ResolvedTree} {n : Nat}

theorem remaining_round {arrays : List String} (h : r.round = .ok (r', n))
    (hsub : r.tree.arrayKeys ⊆ arrays) :
    r'.tree.arrayKeys ⊆ arrays ∧ r'.remaining arrays + n ≤ r.remaining arrays := by
  obtain ⟨-, inferred, hinferred, htree, rfl⟩ := round_cases h
  have hfolded := List.Subset.trans r.tree.arrayKeys_foldConstants hsub
  have hconstants := r.tree.openNodes_foldConstants
  have hmissing := (SyntaxTree.missing_inferLengths hfolded hinferred).1
  have hreads := r.tree.foldConstants.1.openNodes_foldArrayLengths r'.arrays
  rw [htree]
  refine ⟨List.Subset.trans (SyntaxTree.arrayKeys_foldArrayLengths _ _) hfolded, ?_⟩
  unfold remaining
  rw [htree]
  omega

theorem settled_of_round (h : r.round = .ok (r', 0)) : r' = r ∧ r.Settled := by
  obtain ⟨hfold, inferred, hinferred, htree, hn⟩ := round_cases h
  obtain ⟨hconstants, hzero, hreads⟩ : r.tree.foldConstants.2 = 0 ∧ inferred = 0 ∧
      (r.tree.foldConstants.1.foldArrayLengths r'.arrays).2 = 0 := by omega
  have harrays := (SyntaxTree.missing_inferLengths (List.Subset.refl _) hinferred).2 hzero
  have hsame := SyntaxTree.foldArrayLengths_of_zero hreads
  have hfixed := SyntaxTree.foldConstants_of_zero hconstants
  rw [harrays] at hsame hinferred hreads htree
  rw [hfixed] at hsame hinferred hreads htree
  refine ⟨?_, hfold.trans (congrArg _ (Prod.ext hfixed hconstants)), hzero ▸ hinferred, Prod.ext hsame hreads⟩
  cases r'
  cases r
  exact congrArg₂ ResolvedTree.mk (htree.trans hsame) harrays

theorem repeats_rounds {arrays : List String} {fuel : Nat} (hsub : r.tree.arrayKeys ⊆ arrays)
    (h : r.remaining arrays < fuel) :
    ∃ result, Repeats round r result ∧ rounds fuel r = result.map Prod.fst := by
  induction fuel generalizing r with
  | zero => exact absurd h (Nat.not_lt_zero _)
  | succ fuel ih =>
    rw [rounds_succ]
    cases hround : r.round with
    | error e => exact ⟨_, .fails hround, rfl⟩
    | ok p =>
      obtain ⟨next, n⟩ := p
      obtain ⟨hkeys, hless⟩ := remaining_round hround hsub
      by_cases hn : n = 0
      · subst hn
        exact ⟨_, .stops hround, rfl⟩
      · obtain ⟨result, hrepeats, hresult⟩ := ih hkeys (by omega)
        refine ⟨_, .again hround hn hrepeats, (if_neg hn).trans ?_⟩
        rw [hresult]
        cases result <;> rfl

end ResolvedTree

namespace SyntaxTree

variable {t : SyntaxTree} {c : Config}

theorem repeats_resolve (h : t.checkNames = .ok ()) :
    ∃ result, Repeats ResolvedTree.round ⟨t, .ofConfig c⟩ result ∧
      t.resolve c = result.map Prod.fst := by
  have hopen := t.openNodes_le_bodySize
  have hmissing := Nat.le_trans ((ArrayTable.ofConfig c).missing_le_length t.arrayKeys)
    t.length_arrayKeys_le
  unfold resolve
  rw [h]
  refine ResolvedTree.repeats_rounds (List.Subset.refl _) ?_
  change t.openNodes + (ArrayTable.ofConfig c).missing t.arrayKeys < _
  omega

theorem settled_of_resolve {r : ResolvedTree} (h : t.resolve c = .ok r) : r.Settled := by
  cases hnames : t.checkNames with
  | error e =>
    rw [resolve, hnames] at h
    cases h
  | ok _ =>
    obtain ⟨result, hrepeats, hresult⟩ := repeats_resolve (c := c) hnames
    rw [hresult] at h
    cases hr : result with
    | error e => rw [hr] at h; cases h
    | ok p =>
      obtain ⟨last, k⟩ := p
      rw [hr] at h
      obtain rfl : last = r := Except.ok.inj h
      obtain ⟨before, hlast⟩ := hrepeats.last hr
      obtain ⟨rfl, hsettled⟩ := ResolvedTree.settled_of_round hlast
      exact hsettled

/-- The loops of folding and of resolution end: every replacement takes away an expression that is no
literal, and every new length is that of one of the arrays of the tree, which no pass adds to. What
resolution gives is a fixed point of all passes. -/
theorem resolve_settles (t : SyntaxTree) (c : Config) :
    (Repeats foldInitializersOnce t (.ok (t.foldInitializers (t.initializerNodes.length + 1))) ∧
      ∀ fields s, Repeats (Stmt.foldOnce fields) s (.ok (s.fold fields))) ∧
    ((∃ e, t.checkNames = .error e ∧ t.resolve c = .error (.index e)) ∨
      ∃ result, Repeats ResolvedTree.round ⟨t, .ofConfig c⟩ result ∧
        t.resolve c = result.map Prod.fst) ∧
    (t.foldConstants.1.openNodes + t.foldConstants.2 ≤ t.openNodes ∧
      t.foldConstants.1.arrayKeys ⊆ t.arrayKeys) ∧
    (∀ table, (t.foldArrayLengths table).1.openNodes + (t.foldArrayLengths table).2 ≤ t.openNodes ∧
      (t.foldArrayLengths table).1.arrayKeys ⊆ t.arrayKeys) ∧
    (∀ table table' n arrays, t.inferLengths table = (.ok n, table') → t.arrayKeys ⊆ arrays →
      table'.missing arrays + n ≤ table.missing arrays) ∧
    ∀ r, t.resolve c = .ok r → r.Settled := by
  refine ⟨⟨t.repeats_foldInitializers_length, Stmt.repeats_fold⟩, ?_,
    ⟨t.openNodes_foldConstants, t.arrayKeys_foldConstants⟩,
    fun table ↦ ⟨t.openNodes_foldArrayLengths table, t.arrayKeys_foldArrayLengths table⟩,
    fun _ _ _ _ h hsub ↦ (missing_inferLengths hsub h).1, fun _ ↦ settled_of_resolve⟩
  cases hnames : t.checkNames with
  | error e => exact .inl ⟨e, rfl, by rw [resolve, hnames]⟩
  | ok _ => exact .inr (repeats_resolve hnames)

end SyntaxTree

def measured : List TypeDecl :=
  let length : Expr := .binary 0 .add (.literal 0 (.i32 1)) (.literal 0 (.i32 2))
  [{ fullName := "Buffer"
     methods :=
      [{ name := "Size", parameters := [], returnType := .i32
         body := some (.block 0 [.declare 0 "xs" (.array .i32) (some (.newArray 0 .i32 length)),
          .declare 0 "n" .i32 (some (.arrayLength 0 (.getLocal 0 "xs"))),
          .ret 0 (some (.getLocal 0 "n"))]) }] }]

/-- The length of `measured` is folded, entered, read and returned, and only its allocation is left. -/
theorem resolve_settles_measured :
    ∃ r, (SyntaxTree.ofTypes measured).resolve { device := "Zynq-7020" } = .ok r ∧
      r.arrays.get? "Buffer.Size()::xs" = some 3 ∧ r.tree.openNodes = 1 ∧ r.Settled := by
  have hresult : ((SyntaxTree.ofTypes measured).resolve { device := "Zynq-7020" }).toOption.map
      (fun r ↦ (r.arrays.get? "Buffer.Size()::xs", r.tree.openNodes)) = some (some 3, 1) := by
    decide +kernel
  cases hr : (SyntaxTree.ofTypes measured).resolve { device := "Zynq-7020" } with
  | error e => rw [hr] at hresult; cases hresult
  | ok r =>
    rw [hr] at hresult
    obtain ⟨hlength, hopen⟩ := Prod.mk.inj (Option.some.inj hresult)
    have hsettles := SyntaxTree.resolve_settles (SyntaxTree.ofTypes measured) { device := "Zynq-7020" }
    exact ⟨r, rfl, hlength, hopen, hsettles.2.2.2.2.2 r hr⟩

end Fabric
