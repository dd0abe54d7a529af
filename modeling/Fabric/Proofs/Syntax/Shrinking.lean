import Fabric.Proofs.Resolution.Basic
import Mathlib.Algebra.GroupWithZero.Nat

namespace Fabric

theorem sum_map_add_le {α : Type} {g k h : α → Nat} {as : List α}
    (hle : ∀ a ∈ as, g a + k a ≤ h a) : (as.map g).sum + (as.map k).sum ≤ (as.map h).sum := by
  induction as with
  | nil => exact Nat.le_refl 0
  | cons a as ih =>
    obtain ⟨ha, has⟩ := List.forall_mem_cons.1 hle
    have hrest := ih has
    simp only [List.map_cons, List.sum_cons]
    omega

theorem eq_zero_of_sum_map {α : Type} {g : α → Nat} {as : List α} (h : (as.map g).sum = 0) :
    ∀ a ∈ as, g a = 0 := by
  induction as with
  | nil => exact nofun
  | cons a as ih =>
    rw [List.map_cons, List.sum_cons] at h
    exact List.forall_mem_cons.2 ⟨by omega, ih (by omega)⟩

namespace Expr

def withChildren : Expr → List Expr → Expr
  | .unary id op _, [operand] => .unary id op operand
  | .binary id op _ _, [lhs, rhs] => .binary id op lhs rhs
  | .call id target _, args => .call id target args
  | .newArray id element _, [length] => .newArray id element length
  | .arrayElement id _ _, [array, index] => .arrayElement id array index
  | .arrayLength id _, [array] => .arrayLength id array
  | .conditional id _ _ _, [condition, ifTrue, ifFalse] =>
    .conditional id condition ifTrue ifFalse
  | .cast id type _, [operand] => .cast id type operand
  | e, _ => e

@[simp] theorem withChildren_children (e : Expr) : e.withChildren e.children = e := by
  cases e <;> rfl

theorem children_withChildren {e : Expr} {es : List Expr} (h : es.length = e.children.length) :
    (e.withChildren es).children = es := by
  cases e with
  | call => rfl
  | literal | getLocal | getParameter | getField => exact (List.eq_nil_of_length_eq_zero h).symm
  | unary | newArray | arrayLength | cast =>
    obtain ⟨a, rfl⟩ := List.length_eq_one_iff.1 h
    rfl
  | binary | arrayElement =>
    obtain ⟨a, b, rfl⟩ := List.length_eq_two.1 h
    rfl
  | conditional =>
    obtain ⟨a, b, c, rfl⟩ := List.length_eq_three.1 h
    rfl

theorem simplifyList_eq (f : Expr → Option Expr) (es : List Expr) :
    simplifyList f es =
      (es.map fun e ↦ (e.simplify f).1, (es.map fun e ↦ (e.simplify f).2).sum) := by
  induction es with
  | nil => rw [simplifyList, List.map_nil, List.map_nil, List.sum_nil]
  | cons e es ih => rw [simplifyList, ih, List.map_cons, List.map_cons, List.sum_cons]

/-- The operands are simplified, and then the expression may be replaced. -/
theorem simplify_eq (f : Expr → Option Expr) (e : Expr) :
    e.simplify f = replace f (e.withChildren (e.children.map fun c ↦ (c.simplify f).1))
      ((e.children.map fun c ↦ (c.simplify f).2).sum) := by
  cases e with
  | call id target args =>
    rw [simplify, simplifyList_eq]
    rfl
  | _ => simp [simplify, children, withChildren, Nat.add_assoc]

def isOpen (e : Expr) : Bool := e.asLiteral.isNone

theorem isOpen_withChildren (e : Expr) (es : List Expr) :
    (e.withChildren es).isOpen = e.isOpen := by
  unfold withChildren
  split <;> rfl

def openNodes (e : Expr) : Nat := e.nodes.countP isOpen

theorem openNodes_eq (e : Expr) :
    e.openNodes = (e.children.map openNodes).sum + if e.isOpen then 1 else 0 := by
  rw [openNodes, nodes_eq, List.countP_cons, List.countP_flatMap]
  rfl

theorem openNodes_le_length (e : Expr) : e.openNodes ≤ e.nodes.length := List.countP_le_length

def Reduces (f : Expr → Option Expr) : Prop :=
  ∀ e e', f e = some e' → e.isOpen = true ∧ ((∃ id l, e' = .literal id l) ∨ e' ∈ e.children)

variable {f : Expr → Option Expr}

theorem openNodes_child_le {e c : Expr} (hc : c ∈ e.children) :
    c.openNodes + (if e.isOpen then 1 else 0) ≤ e.openNodes := by
  obtain ⟨before, after, heq⟩ := List.append_of_mem hc
  rw [openNodes_eq e, heq]
  simp only [List.map_append, List.map_cons, List.sum_append, List.sum_cons]
  omega

/-- A replacement takes away a node that is no literal. -/
theorem openNodes_of_reduces (hf : Reduces f) {e e' : Expr} (h : f e = some e') :
    e'.openNodes + 1 ≤ e.openNodes := by
  obtain ⟨hopen, ⟨id, l, rfl⟩ | hchild⟩ := hf e e' h
  · rw [openNodes_eq e, hopen]
    exact Nat.le_add_left _ _
  · have hle := openNodes_child_le hchild
    rwa [hopen] at hle

theorem openNodes_simplify (hf : Reduces f) (e : Expr) :
    (e.simplify f).1.openNodes + (e.simplify f).2 ≤ e.openNodes := by
  induction e using induction_children with
  | step e ih =>
    have hchildren := sum_map_add_le ih
    have hopen : (e.withChildren (e.children.map fun c ↦ (c.simplify f).1)).openNodes =
        (e.children.map fun c ↦ (c.simplify f).1.openNodes).sum + if e.isOpen then 1 else 0 := by
      rw [openNodes_eq, children_withChildren (List.length_map _), isOpen_withChildren, List.map_map]
      rfl
    rw [simplify_eq, openNodes_eq e]
    unfold replace
    split
    next e' he' =>
      have hstep := openNodes_of_reduces hf he'
      rw [hopen] at hstep
      dsimp only
      omega
    next =>
      dsimp only
      omega

theorem simplify_of_zero (e : Expr) (h : (e.simplify f).2 = 0) : (e.simplify f).1 = e := by
  induction e using induction_children with
  | step e ih =>
    rw [simplify_eq] at h ⊢
    unfold replace at h ⊢
    split at h
    · cases h
    · have hsame : (e.children.map fun c ↦ (c.simplify f).1) = e.children := by
        refine (List.map_congr_left fun c hc ↦ ih c hc ?_).trans (List.map_id _)
        exact eq_zero_of_sum_map h c hc
      rw [hsame, withChildren_children] at *

end Expr

namespace Stmt

variable (f : Expr → Option Expr)

theorem simplifyOption_snd (o : Option Expr) :
    (simplifyOption f o).2 = (o.toList.map fun e ↦ (e.simplify f).2).sum := by
  cases o with
  | none => rfl
  | some e => simp [simplifyOption]

theorem simplifyStmtOption_snd (o : Option Stmt) :
    (simplifyStmtOption f o).2 = (o.toList.map fun s ↦ (s.simplify f).2).sum := by
  cases o with
  | none => simp [simplifyStmtOption]
  | some s => simp [simplifyStmtOption]

theorem simplifyList_snd (ss : List Stmt) :
    (simplifyList f ss).2 = (ss.map fun s ↦ (s.simplify f).2).sum := by
  induction ss with
  | nil => rw [simplifyList, List.map_nil, List.sum_nil]
  | cons s ss ih =>
    rw [simplifyList, List.map_cons, List.sum_cons]
    exact congrArg _ ih

/-- The replacements are those in the expressions of a statement and in the statements inside it. -/
theorem simplify_snd (s : Stmt) : (s.simplify f).2 =
    (s.exprs.map fun e ↦ (e.simplify f).2).sum +
      (s.children.map fun c ↦ (c.simplify f).2).sum := by
  cases s with
  | block id stmts => simp [simplify, exprs, children, simplifyList_snd]
  | forLoop id init condition step body =>
    simp only [simplify, exprs, children, simplifyOption_snd, simplifyStmtOption_snd,
      List.map_append, List.map_cons, List.sum_append, List.sum_cons]
    omega
  | _ =>
    simp [simplify, exprs, children, simplifyOption_snd, simplifyStmtOption_snd, Nat.add_assoc]

def openNodes (s : Stmt) : Nat := s.exprNodes.countP Expr.isOpen

theorem openNodes_eq (s : Stmt) :
    s.openNodes = (s.exprs.map Expr.openNodes).sum + (s.children.map openNodes).sum := by
  unfold openNodes exprNodes
  rw [nodes_eq, List.flatMap_cons, List.countP_append, List.countP_flatMap, List.flatMap_assoc,
    List.countP_flatMap]
  rfl

variable {f}

theorem openNodes_simplify (hf : Expr.Reduces f) (s : Stmt) :
    (s.simplify f).1.openNodes + (s.simplify f).2 ≤ s.openNodes := by
  induction s using induction_children with
  | step s ih =>
    have hexprs := sum_map_add_le fun e (_ : e ∈ s.exprs) ↦ e.openNodes_simplify hf
    have hchildren := sum_map_add_le ih
    rw [openNodes_eq, openNodes_eq s, simplify_snd, exprs_simplify, children_simplify,
      List.map_map, List.map_map]
    simp only [Function.comp_def]
    omega

def Steady (f : Expr → Option Expr) (s : Stmt) : Prop :=
  (s.simplify f).2 = 0 → (s.simplify f).1 = s

theorem simplifyOption_of_zero {o : Option Expr} (h : (simplifyOption f o).2 = 0) :
    (simplifyOption f o).1 = o := by
  cases o with
  | none => rfl
  | some e => exact congrArg some (e.simplify_of_zero h)

theorem simplifyStmtOption_of_zero {o : Option Stmt} (ho : ∀ s ∈ o, s.Steady f)
    (h : (simplifyStmtOption f o).2 = 0) : (simplifyStmtOption f o).1 = o := by
  rw [simplifyStmtOption_fst]
  rw [simplifyStmtOption_snd] at h
  cases o with
  | none => rfl
  | some s => exact congrArg some (ho s rfl (eq_zero_of_sum_map h s (List.mem_singleton_self s)))

theorem simplifyList_of_zero {ss : List Stmt} (hss : ∀ s ∈ ss, s.Steady f)
    (h : (simplifyList f ss).2 = 0) : (simplifyList f ss).1 = ss := by
  rw [simplifyList_fst]
  rw [simplifyList_snd] at h
  exact (List.map_congr_left fun s hs ↦ hss s hs (eq_zero_of_sum_map h s hs)).trans (List.map_id _)

theorem simplify_of_zero (s : Stmt) : s.Steady f := by
  induction s using Stmt.induction with
  | breakLoop id | continueLoop id =>
    intro _
    rw [simplify]
  | declare id name type init | ret id init =>
    intro h
    rw [simplify] at h ⊢
    dsimp only at h ⊢
    rw [simplifyOption_of_zero h]
  | assign id target e | eval id e =>
    intro h
    rw [simplify] at h ⊢
    dsimp only at h ⊢
    rw [e.simplify_of_zero h]
  | store id array index value =>
    intro h
    rw [simplify] at h ⊢
    dsimp only at h ⊢
    rw [array.simplify_of_zero (by omega), index.simplify_of_zero (by omega),
      value.simplify_of_zero (by omega)]
  | branch id condition thenBranch elseBranch iht ihe =>
    intro h
    rw [simplify] at h ⊢
    dsimp only at h ⊢
    rw [condition.simplify_of_zero (by omega), iht (by omega),
      simplifyStmtOption_of_zero ihe (by omega)]
  | whileLoop id condition body ih =>
    intro h
    rw [simplify] at h ⊢
    dsimp only at h ⊢
    rw [condition.simplify_of_zero (by omega), ih (by omega)]
  | forLoop id init condition step body ihi ihs ihb =>
    intro h
    rw [simplify] at h ⊢
    dsimp only at h ⊢
    rw [simplifyOption_of_zero (by omega), simplifyStmtOption_of_zero ihi (by omega), ihb (by omega),
      simplifyStmtOption_of_zero ihs (by omega)]
  | block id stmts ih =>
    intro h
    rw [simplify] at h ⊢
    dsimp only at h ⊢
    rw [simplifyList_of_zero ih h]
  | parallel id count index call results =>
    intro h
    rw [simplify] at h ⊢
    dsimp only at h ⊢
    rw [count.simplify_of_zero (by omega), call.simplify_of_zero (by omega)]

end Stmt

end Fabric
