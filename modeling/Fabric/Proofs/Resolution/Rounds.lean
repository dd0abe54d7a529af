import Fabric.Proofs.Syntax.Shrinking
import Mathlib.Algebra.Order.BigOperators.Group.List
import Mathlib.Algebra.Order.Group.Nat

namespace Fabric

/-- How a loop ends that repeats a pass until the pass changes nothing or fails. A pass counts what it
changes, and the loop adds the counts up. -/
inductive Repeats {α ε : Type} (pass : α → Except ε (α × Nat)) : α → Except ε (α × Nat) → Prop
  | fails {a : α} {e : ε} : pass a = .error e → Repeats pass a (.error e)
  | stops {a b : α} : pass a = .ok (b, 0) → Repeats pass a (.ok (b, 0))
  | again {a b : α} {n : Nat} {r : Except ε (α × Nat)} : pass a = .ok (b, n) → n ≠ 0 →
      Repeats pass b r → Repeats pass a (r.map fun p ↦ (p.1, n + p.2))

/-- A loop that ends without a failure ends with a pass that changes nothing. -/
theorem Repeats.last {α ε : Type} {pass : α → Except ε (α × Nat)} {a : α} {r : Except ε (α × Nat)}
    (h : Repeats pass a r) {b : α} {k : Nat} (hr : r = .ok (b, k)) : ∃ c, pass c = .ok (b, 0) := by
  induction h generalizing k with
  | fails h => cases hr
  | stops h =>
    obtain ⟨rfl, -⟩ := Prod.mk.inj (Except.ok.inj hr)
    exact ⟨_, h⟩
  | @again a b' n r h hn hrest ih =>
    cases r with
    | error e => cases hr
    | ok p =>
      obtain ⟨rfl, -⟩ := Prod.mk.inj (Except.ok.inj hr)
      exact ih rfl

theorem Expr.reduces_foldStep (fields locals : Constants) :
    Expr.Reduces (Expr.foldStep fields locals) := by
  have hliteral {e e' : Expr} (hopen : e.isOpen = true)
      (h : (e.foldLiteral fields locals).map (fun l ↦ .literal e.id l) = some e') :
      e.isOpen = true ∧ ((∃ id l, e' = .literal id l) ∨ e' ∈ e.children) := by
    obtain ⟨l, -, rfl⟩ := Option.map_eq_some_iff.1 h
    exact ⟨hopen, .inl ⟨_, l, rfl⟩⟩
  intro e e' h
  cases e with
  | literal => exact nomatch h
  | conditional id condition ifTrue ifFalse =>
    simp only [foldStep] at h
    split at h
    · obtain rfl := Option.some.inj h
      exact ⟨rfl, .inr (by simp [children])⟩
    · obtain rfl := Option.some.inj h
      exact ⟨rfl, .inr (by simp [children])⟩
    · cases h
  | _ => exact hliteral rfl h

theorem SyntaxTree.reduces_foldLengthStep (s : LengthScope) :
    Expr.Reduces (foldLengthStep s) := by
  intro e e' h
  cases e with
  | arrayLength id array =>
    simp only [foldLengthStep] at h
    split at h
    · split at h
      · obtain rfl := Option.some.inj h
        exact ⟨rfl, .inl ⟨_, _, rfl⟩⟩
      · cases h
    · cases h
  | _ => cases h

section

variable {α : Type} {f : α → α × Nat} {as : List α}

theorem mapCount_snd (f : α → α × Nat) (as : List α) :
    (mapCount f as).2 = (as.map fun a ↦ (f a).2).sum := by
  induction as with
  | nil => rfl
  | cons a as ih => rw [mapCount, List.map_cons, List.sum_cons, ← ih]

theorem mapCount_le {size : α → Nat} (h : ∀ a, size (f a).1 + (f a).2 ≤ size a) :
    ((mapCount f as).1.map size).sum + (mapCount f as).2 ≤ (as.map size).sum := by
  rw [mapCount_fst, mapCount_snd, List.map_map]
  exact sum_map_add_le fun a _ ↦ h a

theorem mapCount_of_zero (hf : ∀ a, (f a).2 = 0 → (f a).1 = a) (h : (mapCount f as).2 = 0) :
    (mapCount f as).1 = as := by
  rw [mapCount_snd] at h
  rw [mapCount_fst]
  exact (List.map_congr_left fun a ha ↦ hf a (eq_zero_of_sum_map h a ha)).trans (List.map_id _)

end

def TypeDecl.openInitializers (d : TypeDecl) : Nat :=
  (d.fields.map fun f ↦ (f.initializer.toList.map Expr.openNodes).sum).sum

def TypeDecl.openBodies (d : TypeDecl) : Nat :=
  (d.methods.map fun m ↦ (m.body.toList.map Stmt.openNodes).sum).sum

namespace SyntaxTree

def openInitializers (t : SyntaxTree) : Nat := (t.types.map TypeDecl.openInitializers).sum

def openBodies (t : SyntaxTree) : Nat := (t.types.map TypeDecl.openBodies).sum

def openNodes (t : SyntaxTree) : Nat := t.openInitializers + t.openBodies

section

variable {t : SyntaxTree}

theorem openInitializers_mapInitializers {f : Expr → Expr × Nat}
    (hf : ∀ e, (f e).1.openNodes + (f e).2 ≤ e.openNodes) :
    (t.mapInitializers f).1.openInitializers + (t.mapInitializers f).2 ≤ t.openInitializers := by
  refine mapCount_le fun d ↦ mapCount_le fun field ↦ ?_
  cases hi : field.initializer with
  | none => simp [hi]
  | some e => simpa [hi] using hf e

theorem openBodies_mapInitializers (f : Expr → Expr × Nat) :
    (t.mapInitializers f).1.openBodies = t.openBodies := by
  unfold openBodies mapInitializers
  dsimp only
  rw [mapCount_fst, List.map_map]
  rfl

theorem mapInitializers_of_zero {f : Expr → Expr × Nat} (hf : ∀ e, (f e).2 = 0 → (f e).1 = e)
    (h : (t.mapInitializers f).2 = 0) : (t.mapInitializers f).1 = t := by
  refine congrArg SyntaxTree.mk (mapCount_of_zero (fun d hd ↦ ?_) h)
  have hfields := mapCount_of_zero (fun (field : FieldDecl) hfield ↦ ?_) hd
  · exact congrArg (fun fields ↦ { d with fields := fields }) hfields
  · cases hi : field.initializer with
    | none => rfl
    | some e =>
      rw [hi] at hfield
      dsimp only
      rw [hf e hfield, ← hi]

theorem openBodies_mapBodies {f : String → Stmt → Stmt × Nat}
    (hf : ∀ name s, (f name s).1.openNodes + (f name s).2 ≤ s.openNodes) :
    (t.mapBodies f).1.openBodies + (t.mapBodies f).2 ≤ t.openBodies := by
  refine mapCount_le fun d ↦ mapCount_le fun m ↦ ?_
  cases hb : m.body with
  | none => simp [hb]
  | some s => simpa [hb] using hf (d.memberFullName m) s

theorem openInitializers_mapBodies (f : String → Stmt → Stmt × Nat) :
    (t.mapBodies f).1.openInitializers = t.openInitializers := by
  unfold openInitializers mapBodies
  dsimp only
  rw [mapCount_fst, List.map_map]
  rfl

theorem mapBodies_of_zero {f : String → Stmt → Stmt × Nat}
    (hf : ∀ name s, (f name s).2 = 0 → (f name s).1 = s) (h : (t.mapBodies f).2 = 0) :
    (t.mapBodies f).1 = t := by
  refine congrArg SyntaxTree.mk (mapCount_of_zero (fun d hd ↦ ?_) h)
  have hmethods := mapCount_of_zero (fun (m : MethodDecl) hm ↦ ?_) hd
  · exact congrArg (fun methods ↦ { d with methods := methods }) hmethods
  · cases hb : m.body with
    | none => rfl
    | some s =>
      rw [hb] at hm
      dsimp only
      rw [hf _ s hm, ← hb]

end

end SyntaxTree

namespace Stmt

variable {fields : Constants}

def foldOnce (fields : Constants) (s : Stmt) : Except ResolveError (Stmt × Nat) :=
  .ok (s.simplify (Expr.foldStep fields s.constantLocals))

theorem repeats_foldRounds {fuel : Nat} {s : Stmt} (h : s.openNodes < fuel) :
    Repeats (foldOnce fields) s (.ok (s.foldRounds fields fuel)) := by
  induction fuel generalizing s with
  | zero => exact absurd h (Nat.not_lt_zero _)
  | succ fuel ih =>
    have hless := s.openNodes_simplify (Expr.reduces_foldStep fields s.constantLocals)
    unfold foldRounds
    dsimp only
    split
    next hzero => exact .stops (by rw [foldOnce, ← hzero])
    next hn =>
      have hpass : foldOnce fields s =
        .ok ((s.simplify (Expr.foldStep fields s.constantLocals)).1, _) := rfl
      exact .again hpass hn (ih (by omega))

theorem repeats_fold (fields : Constants) (s : Stmt) :
    Repeats (foldOnce fields) s (.ok (s.fold fields)) :=
  repeats_foldRounds (Nat.lt_succ_of_le List.countP_le_length)

theorem openNodes_foldRounds (fields : Constants) (fuel : Nat) (s : Stmt) :
    (s.foldRounds fields fuel).1.openNodes + (s.foldRounds fields fuel).2 ≤ s.openNodes := by
  induction fuel generalizing s with
  | zero => exact Nat.le_refl _
  | succ fuel ih =>
    have hless := s.openNodes_simplify (Expr.reduces_foldStep fields s.constantLocals)
    unfold foldRounds
    dsimp only
    split
    · dsimp only
      omega
    · have hrest := ih (s.simplify (Expr.foldStep fields s.constantLocals)).1
      dsimp only
      omega

theorem fold_of_zero {s : Stmt} (h : (s.fold fields).2 = 0) : (s.fold fields).1 = s := by
  unfold fold foldRounds at h ⊢
  dsimp only at h ⊢
  split at h
  next hzero =>
    rw [if_pos hzero]
    exact s.simplify_of_zero hzero
  next hn => exact absurd (Nat.eq_zero_of_add_eq_zero_right h) hn

end Stmt

namespace SyntaxTree

def foldInitializersOnce (t : SyntaxTree) : Except ResolveError (SyntaxTree × Nat) :=
  .ok (t.mapInitializers fun e ↦ e.simplify (Expr.foldStep t.constantFields []))

theorem openInitializers_foldOnce (t : SyntaxTree) :
    (t.mapInitializers fun e ↦ e.simplify (Expr.foldStep t.constantFields [])).1.openInitializers +
      (t.mapInitializers fun e ↦ e.simplify (Expr.foldStep t.constantFields [])).2 ≤
        t.openInitializers :=
  openInitializers_mapInitializers fun e ↦ e.openNodes_simplify (Expr.reduces_foldStep _ _)

theorem repeats_foldInitializers {fuel : Nat} {t : SyntaxTree} (h : t.openInitializers < fuel) :
    Repeats foldInitializersOnce t (.ok (foldInitializers fuel t)) := by
  induction fuel generalizing t with
  | zero => exact absurd h (Nat.not_lt_zero _)
  | succ fuel ih =>
    have hless := t.openInitializers_foldOnce
    unfold foldInitializers
    dsimp only
    split
    next hzero => exact .stops (by rw [foldInitializersOnce, ← hzero])
    next hn =>
      have hpass : foldInitializersOnce t = .ok ((t.mapInitializers fun e ↦
        e.simplify (Expr.foldStep t.constantFields [])).1, _) := rfl
      exact .again hpass hn (ih (by omega))

theorem openInitializers_le_length (t : SyntaxTree) :
    t.openInitializers ≤ t.initializerNodes.length := by
  have hlength : ∀ d ∈ t.types, d.openInitializers ≤
      (d.fields.flatMap fun f ↦ f.initializer.toList.flatMap Expr.nodes).length := by
    intro d _
    rw [TypeDecl.openInitializers, List.length_flatMap]
    refine List.sum_le_sum fun f _ ↦ ?_
    rw [List.length_flatMap]
    exact List.sum_le_sum fun e _ ↦ e.openNodes_le_length
  rw [openInitializers, initializerNodes, List.length_flatMap]
  exact List.sum_le_sum hlength

/-- Folding the initial values ends. -/
theorem repeats_foldInitializers_length (t : SyntaxTree) : Repeats foldInitializersOnce t
    (.ok (foldInitializers (t.initializerNodes.length + 1) t)) :=
  repeats_foldInitializers (Nat.lt_succ_of_le t.openInitializers_le_length)

theorem openNodes_foldInitializers (fuel : Nat) (t : SyntaxTree) :
    (foldInitializers fuel t).1.openNodes + (foldInitializers fuel t).2 ≤ t.openNodes := by
  induction fuel generalizing t with
  | zero => exact Nat.le_refl _
  | succ fuel ih =>
    have hless := t.openInitializers_foldOnce
    have hsame := openBodies_mapInitializers (t := t) fun e ↦
      e.simplify (Expr.foldStep t.constantFields [])
    unfold foldInitializers
    dsimp only
    unfold openNodes at ih ⊢
    split
    · dsimp only
      omega
    · have hrest := ih (t.mapInitializers fun e ↦
        e.simplify (Expr.foldStep t.constantFields [])).1
      dsimp only
      omega

theorem foldInitializers_of_zero {fuel : Nat} {t : SyntaxTree} (h : (foldInitializers fuel t).2 = 0) :
    (foldInitializers fuel t).1 = t := by
  cases fuel with
  | zero => rfl
  | succ fuel =>
    unfold foldInitializers at h ⊢
    dsimp only at h ⊢
    split at h
    next hzero =>
      rw [if_pos hzero]
      exact mapInitializers_of_zero (fun e ↦ e.simplify_of_zero) hzero
    next hn => exact absurd (Nat.eq_zero_of_add_eq_zero_right h) hn

/-- As many expressions are gone as were folded. -/
theorem openNodes_foldConstants (t : SyntaxTree) :
    t.foldConstants.1.openNodes + t.foldConstants.2 ≤ t.openNodes := by
  have hfirst := openNodes_foldInitializers (t.initializerNodes.length + 1) t
  unfold foldConstants
  generalize foldInitializers (t.initializerNodes.length + 1) t = first at hfirst ⊢
  have hbodies := openBodies_mapBodies (t := first.1) fun _ s ↦
    Stmt.openNodes_foldRounds first.1.constantFields (s.exprNodes.length + 1) s
  have hsame := openInitializers_mapBodies (t := first.1) fun _ s ↦
    s.foldRounds first.1.constantFields (s.exprNodes.length + 1)
  unfold Stmt.fold
  dsimp only
  unfold openNodes at hfirst ⊢
  omega

theorem foldConstants_of_zero {t : SyntaxTree} (h : t.foldConstants.2 = 0) :
    t.foldConstants.1 = t := by
  unfold foldConstants at h ⊢
  dsimp only at h ⊢
  rw [foldInitializers_of_zero (Nat.eq_zero_of_add_eq_zero_right h)] at h ⊢
  exact mapBodies_of_zero (fun _ s ↦ s.fold_of_zero) (Nat.eq_zero_of_add_eq_zero_left h)

end SyntaxTree

end Fabric
