import Fabric.Proofs.Syntax.Nodes
import Fabric.Syntax.Tree
import Mathlib.Data.List.Forall2
import Mathlib.Data.Option.Basic

namespace Fabric

abbrev Alike {α : Type} (number : NodeId → α → α × NodeId) (a b : α) : Prop :=
  ∀ next, number next a = number next b

theorem Expr.numberList_congr {es es' : List Expr} (h : List.Forall₂ (Alike number) es es') :
    Alike numberList es es' := by
  intro next
  induction h generalizing next with
  | nil => rfl
  | cons he _ ih => simp only [numberList, he, ih]

theorem Stmt.numberOption_congr {o o' : Option Expr} (h : Option.Rel (Alike Expr.number) o o') :
    Alike numberOption o o' := by
  intro next
  cases h with
  | none => rfl
  | some he => rw [numberOption, numberOption, he]

theorem Stmt.numberStmtOption_congr {o o' : Option Stmt} (h : Option.Rel (Alike number) o o') :
    Alike numberStmtOption o o' := by
  intro next
  cases h with
  | none => rfl
  | some hs => rw [numberStmtOption, numberStmtOption, hs]

theorem Stmt.numberList_congr {ss ss' : List Stmt} (h : List.Forall₂ (Alike number) ss ss') :
    Alike numberList ss ss' := by
  intro next
  induction h generalizing next with
  | nil => rfl
  | cons hs _ ih => simp only [numberList, hs, ih]

theorem numberAll_congr {α : Type} {number : NodeId → α → α × NodeId} {as bs : List α}
    (h : List.Forall₂ (Alike number) as bs) : Alike (numberAll number) as bs := by
  intro next
  induction h generalizing next with
  | nil => rfl
  | cons ha _ ih => simp only [numberAll, ha, ih]

theorem Expr.numberList_number {es : List Expr} (h : ∀ e ∈ es, ∀ k, Alike number (e.number k).1 e)
    (k : NodeId) : Alike numberList (numberList k es).1 es := by
  intro next
  induction es generalizing k next with
  | nil => simp only [numberList]
  | cons e es ih =>
    obtain ⟨he, hes⟩ := List.forall_mem_cons.1 h
    simp only [numberList, he, ih hes]

theorem Expr.number_number (e : Expr) (k : NodeId) : Alike number (e.number k).1 e := by
  intro next
  induction e using Expr.induction generalizing k next with
  | literal | getLocal | getParameter | getField => rfl
  | unary id op operand ih => simp only [number, ih]
  | binary id op lhs rhs ihl ihr => simp only [number, ihl, ihr]
  | call id target args ih => simp only [number, numberList_number ih]
  | newArray id element length ih => simp only [number, ih]
  | arrayElement id array index iha ihi => simp only [number, iha, ihi]
  | arrayLength id array ih => simp only [number, ih]
  | conditional id condition ifTrue ifFalse ihc iht ihf => simp only [number, ihc, iht, ihf]
  | cast id type operand ih => simp only [number, ih]

namespace Stmt

theorem numberOption_number (o : Option Expr) (k : NodeId) :
    Alike numberOption (numberOption k o).1 o := by
  intro next
  cases o with
  | none => rfl
  | some e => simp only [numberOption, e.number_number k]

theorem numberStmtOption_number {o : Option Stmt}
    (h : ∀ s ∈ o, ∀ k, Alike number (s.number k).1 s) (k : NodeId) :
    Alike numberStmtOption (numberStmtOption k o).1 o := by
  intro next
  cases o with
  | none => simp only [numberStmtOption]
  | some s => simp only [numberStmtOption, h s rfl k]

theorem numberList_number {ss : List Stmt} (h : ∀ s ∈ ss, ∀ k, Alike number (s.number k).1 s)
    (k : NodeId) : Alike numberList (numberList k ss).1 ss := by
  intro next
  induction ss generalizing k next with
  | nil => simp only [numberList]
  | cons s ss ih =>
    obtain ⟨hs, hss⟩ := List.forall_mem_cons.1 h
    simp only [numberList, hs, ih hss]

theorem number_number (s : Stmt) (k : NodeId) : Alike number (s.number k).1 s := by
  intro next
  induction s using Stmt.induction generalizing k next with
  | declare id name type init => simp only [number, numberOption_number]
  | assign id target value => simp only [number, value.number_number]
  | store id array index value =>
    simp only [number, array.number_number, index.number_number, value.number_number]
  | branch id condition thenBranch elseBranch iht ihe =>
    simp only [number, condition.number_number, iht, numberStmtOption_number ihe]
  | whileLoop id condition body ih => simp only [number, condition.number_number, ih]
  | forLoop id init condition step body ihi ihs ihb =>
    simp only [number, numberOption_number, numberStmtOption_number ihi, ihb,
      numberStmtOption_number ihs]
  | ret id value => simp only [number, numberOption_number]
  | eval id e => simp only [number, e.number_number]
  | block id stmts ih => simp only [number, numberList_number ih]
  | breakLoop id | continueLoop id => simp only [number]
  | parallel id count index call results =>
    simp only [number, count.number_number, call.number_number]

end Stmt

theorem numberAll_number {α : Type} {number : NodeId → α → α × NodeId}
    (h : ∀ a k, Alike number (number k a).1 a) (as : List α) (k : NodeId) :
    Alike (numberAll number) (numberAll number k as).1 as := by
  intro next
  induction as generalizing k next with
  | nil => rfl
  | cons a as ih => simp only [numberAll, h a k, ih]

theorem FieldDecl.number_number (f : FieldDecl) (k : NodeId) : Alike number (f.number k).1 f := by
  intro next
  simp only [number, Stmt.numberOption_number]

theorem MethodDecl.number_number (m : MethodDecl) (k : NodeId) :
    Alike number (m.number k).1 m := by
  intro next
  simp only [number, Stmt.numberStmtOption_number fun s _ ↦ s.number_number]

theorem TypeDecl.number_number (t : TypeDecl) (k : NodeId) : Alike number (t.number k).1 t := by
  intro next
  simp only [number, numberAll_number FieldDecl.number_number,
    numberAll_number MethodDecl.number_number]

/-- A tree that is numbered is left as it is when it is numbered again. -/
theorem SyntaxTree.ofTypes_types (types : List TypeDecl) :
    ofTypes (ofTypes types).types = ofTypes types := by
  simp only [ofTypes, numberAll_number TypeDecl.number_number]

end Fabric
