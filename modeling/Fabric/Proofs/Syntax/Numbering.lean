import Fabric.Proofs.Syntax.Nodes
import Fabric.Resolution.Basic
import Mathlib.Algebra.Group.Nat.Defs
import Mathlib.Data.List.Nodup

namespace Fabric

open scoped List

inductive Numbered : NodeId → List NodeId → NodeId → Prop
  | nil (n : NodeId) : Numbered n [] n
  | cons {n m : NodeId} {ids : List NodeId} : Numbered (n + 1) ids m → Numbered n (n :: ids) m

namespace Numbered

variable {n m k : NodeId} {ids ids' : List NodeId}

theorem single (n : NodeId) : Numbered n [n] (n + 1) := .cons (.nil _)

theorem append (h : Numbered n ids m) (h' : Numbered m ids' k) : Numbered n (ids ++ ids') k := by
  induction h with
  | nil => exact h'
  | cons _ ih => exact .cons (ih h')

theorem mem (h : Numbered n ids m) {x : NodeId} (hx : x ∈ ids) :
    ∃ i < ids.length, x.toNat = (n.toNat + i) % 2 ^ 32 := by
  induction h with
  | nil => exact nomatch hx
  | @cons n m ids _ ih =>
    rcases List.mem_cons.1 hx with rfl | hx
    · exact ⟨0, Nat.succ_pos _, (Nat.mod_eq_of_lt x.toNat_lt).symm⟩
    · obtain ⟨i, hi, heq⟩ := ih hx
      refine ⟨i + 1, Nat.succ_lt_succ hi, ?_⟩
      rw [heq, UInt32.toNat_add]
      simp only [UInt32.reduceToNat]
      omega

/-- No more than `2 ^ 32` numbers are all different. -/
theorem nodup (h : Numbered n ids m) (hlen : ids.length ≤ 2 ^ 32) : ids.Nodup := by
  induction h with
  | nil => exact List.nodup_nil
  | @cons n m ids hs ih =>
    rw [List.length_cons] at hlen
    refine List.nodup_cons.2 ⟨fun hmem ↦ ?_, ih (by omega)⟩
    obtain ⟨i, hi, heq⟩ := hs.mem hmem
    have hn := n.toNat_lt
    rw [UInt32.toNat_add] at heq
    simp only [UInt32.reduceToNat] at heq
    omega

theorem eq_range (h : Numbered n ids m) {k : Nat} (hk : n = .ofNat k) :
    ids = (List.range' k ids.length).map UInt32.ofNat := by
  induction h generalizing k with
  | nil => rfl
  | @cons n m ids _ ih =>
    have hnext : n + 1 = .ofNat (k + 1) := by rw [hk, UInt32.ofNat_add, UInt32.ofNat_one]
    rw [List.length_cons, List.range'_succ, List.map_cons, ← ih hnext, hk]

end Numbered

theorem toNat_map_range {k n : Nat} (h : k + n ≤ 2 ^ 32) :
    ((List.range' k n).map UInt32.ofNat).map UInt32.toNat = List.range' k n := by
  rw [List.map_map]
  refine (List.map_congr_left fun i hi ↦ ?_).trans (List.map_id _)
  obtain ⟨-, hi⟩ := List.mem_range'_1.1 hi
  exact UInt32.toNat_ofNat_of_lt' (by omega : i < 2 ^ 32)

def Expr.ids (e : Expr) : List NodeId := e.nodes.map Expr.id

theorem Expr.ids_eq (e : Expr) : e.ids = e.id :: e.children.flatMap Expr.ids := by
  unfold ids
  rw [e.nodes_eq, List.map_cons, List.map_flatMap]

namespace Stmt

def headIds (s : Stmt) : List NodeId := s.id :: s.exprs.flatMap Expr.ids

def ids (s : Stmt) : List NodeId := s.nodes.flatMap headIds

theorem ids_eq (s : Stmt) : s.ids = s.headIds ++ s.children.flatMap ids := by
  unfold ids
  rw [s.nodes_eq, List.flatMap_cons, List.flatMap_assoc]

end Stmt

def FieldDecl.ids (f : FieldDecl) : List NodeId := f.id :: f.initializer.toList.flatMap Expr.ids

def MethodDecl.ids (m : MethodDecl) : List NodeId := m.id :: m.body.toList.flatMap Stmt.ids

def TypeDecl.ids (t : TypeDecl) : List NodeId :=
  t.id :: (t.fields.flatMap FieldDecl.ids ++ t.methods.flatMap MethodDecl.ids)

def SyntaxTree.ids (t : SyntaxTree) : List NodeId := t.types.flatMap TypeDecl.ids

theorem Expr.numbered_list {es : List Expr}
    (h : ∀ e ∈ es, ∀ next, Numbered next (e.number next).1.ids (e.number next).2) (next : NodeId) :
    Numbered next ((numberList next es).1.flatMap Expr.ids) (numberList next es).2 := by
  induction es generalizing next with
  | nil =>
    rw [numberList]
    exact .nil next
  | cons e es ih =>
    obtain ⟨he, hes⟩ := List.forall_mem_cons.1 h
    rw [numberList]
    dsimp only
    rw [List.flatMap_cons]
    exact (he next).append (ih hes _)

theorem Expr.numbered (e : Expr) (next : NodeId) :
    Numbered next (e.number next).1.ids (e.number next).2 := by
  induction e using Expr.induction generalizing next with
  | literal | getLocal | getParameter | getField => exact .single next
  | unary id op operand ih =>
    rw [number, ids_eq]
    simpa [Expr.id, children] using (ih (next + 1)).cons
  | binary id op lhs rhs ihl ihr =>
    rw [number, ids_eq]
    simpa [Expr.id, children] using ((ihl (next + 1)).append (ihr _)).cons
  | call id target args ih =>
    rw [number, ids_eq]
    exact (numbered_list ih (next + 1)).cons
  | newArray id element length ih =>
    rw [number, ids_eq]
    simpa [Expr.id, children] using (ih (next + 1)).cons
  | arrayElement id array index iha ihi =>
    rw [number, ids_eq]
    simpa [Expr.id, children] using ((iha (next + 1)).append (ihi _)).cons
  | arrayLength id array ih =>
    rw [number, ids_eq]
    simpa [Expr.id, children] using (ih (next + 1)).cons
  | conditional id condition ifTrue ifFalse ihc iht ihf =>
    rw [number, ids_eq]
    simpa [Expr.id, children] using (((ihc (next + 1)).append (iht _)).append (ihf _)).cons
  | cast id type operand ih =>
    rw [number, ids_eq]
    simpa [Expr.id, children] using (ih (next + 1)).cons

namespace Stmt

theorem numbered_option (o : Option Expr) (next : NodeId) :
    Numbered next ((numberOption next o).1.toList.flatMap Expr.ids) (numberOption next o).2 := by
  cases o with
  | none => exact .nil next
  | some e => simpa [numberOption] using e.numbered next

theorem numbered_stmtOption {o : Option Stmt}
    (h : ∀ s ∈ o, ∀ next, Numbered next (s.number next).1.ids (s.number next).2) (next : NodeId) :
    Numbered next ((numberStmtOption next o).1.toList.flatMap ids) (numberStmtOption next o).2 := by
  cases o with
  | none =>
    rw [numberStmtOption]
    exact .nil next
  | some s =>
    rw [numberStmtOption]
    simpa using h s rfl next

theorem numbered_list {ss : List Stmt}
    (h : ∀ s ∈ ss, ∀ next, Numbered next (s.number next).1.ids (s.number next).2) (next : NodeId) :
    Numbered next ((numberList next ss).1.flatMap ids) (numberList next ss).2 := by
  induction ss generalizing next with
  | nil =>
    rw [numberList]
    exact .nil next
  | cons s ss ih =>
    obtain ⟨hs, hss⟩ := List.forall_mem_cons.1 h
    rw [numberList]
    dsimp only
    rw [List.flatMap_cons]
    exact (hs next).append (ih hss _)

theorem numbered (s : Stmt) (next : NodeId) :
    Numbered next (s.number next).1.ids (s.number next).2 := by
  induction s using Stmt.induction generalizing next with
  | declare id name type init =>
    rw [number, ids_eq]
    simpa [headIds, Stmt.id, exprs, children] using (numbered_option init (next + 1)).cons
  | assign id target value =>
    rw [number, ids_eq]
    simpa [headIds, Stmt.id, exprs, children] using (value.numbered (next + 1)).cons
  | store id array index value =>
    rw [number, ids_eq]
    simpa [headIds, Stmt.id, exprs, children] using
      (((array.numbered (next + 1)).append (index.numbered _)).append (value.numbered _)).cons
  | branch id condition thenBranch elseBranch iht ihe =>
    rw [number, ids_eq]
    simpa [headIds, Stmt.id, exprs, children] using (((condition.numbered (next + 1)).append
      (iht _)).append (numbered_stmtOption ihe _)).cons
  | whileLoop id condition body ih =>
    rw [number, ids_eq]
    simpa [headIds, Stmt.id, exprs, children] using ((condition.numbered (next + 1)).append (ih _)).cons
  | forLoop id init condition step body ihi ihs ihb =>
    rw [number, ids_eq]
    simpa [headIds, Stmt.id, exprs, children] using ((((numbered_option condition (next + 1)).append
      (numbered_stmtOption ihi _)).append (ihb _)).append (numbered_stmtOption ihs _)).cons
  | ret id value =>
    rw [number, ids_eq]
    simpa [headIds, Stmt.id, exprs, children] using (numbered_option value (next + 1)).cons
  | eval id e =>
    rw [number, ids_eq]
    simpa [headIds, Stmt.id, exprs, children] using (e.numbered (next + 1)).cons
  | block id stmts ih =>
    rw [number, ids_eq]
    simpa [headIds, Stmt.id, exprs, children] using (numbered_list ih (next + 1)).cons
  | breakLoop id =>
    rw [number, ids_eq]
    exact .single next
  | continueLoop id =>
    rw [number, ids_eq]
    exact .single next
  | parallel id count index call results =>
    rw [number, ids_eq]
    simpa [headIds, Stmt.id, exprs, children] using
      ((count.numbered (next + 1)).append (call.numbered _)).cons

end Stmt

theorem numberAll_numbered {α : Type} {number : NodeId → α → α × NodeId} {ids : α → List NodeId}
    (h : ∀ a next, Numbered next (ids (number next a).1) (number next a).2) (as : List α)
    (next : NodeId) :
    Numbered next ((numberAll number next as).1.flatMap ids) (numberAll number next as).2 := by
  induction as generalizing next with
  | nil => exact .nil next
  | cons a as ih =>
    rw [numberAll]
    dsimp only
    rw [List.flatMap_cons]
    exact (h a next).append (ih _)

theorem FieldDecl.numbered (f : FieldDecl) (next : NodeId) :
    Numbered next (f.number next).1.ids (f.number next).2 :=
  .cons (Stmt.numbered_option f.initializer (next + 1))

theorem MethodDecl.numbered (m : MethodDecl) (next : NodeId) :
    Numbered next (m.number next).1.ids (m.number next).2 :=
  .cons (Stmt.numbered_stmtOption (fun s _ ↦ s.numbered) (next + 1))

theorem TypeDecl.numbered (t : TypeDecl) (next : NodeId) :
    Numbered next (t.number next).1.ids (t.number next).2 :=
  .cons ((numberAll_numbered FieldDecl.numbered t.fields (next + 1)).append
    (numberAll_numbered MethodDecl.numbered t.methods _))

/-- The nodes of a tree have different numbers as long as there are no more nodes than numbers. -/
theorem SyntaxTree.nodup_ids_ofTypes (types : List TypeDecl)
    (h : (ofTypes types).ids.length ≤ 2 ^ 32) : (ofTypes types).ids.Nodup :=
  (numberAll_numbered TypeDecl.numbered types 1).nodup h

/-- The nodes of a tree have the numbers from one on, in the order of the tree. -/
theorem SyntaxTree.ids_ofTypes (types : List TypeDecl) :
    (ofTypes types).ids = (List.range' 1 (ofTypes types).ids.length).map UInt32.ofNat :=
  (numberAll_numbered TypeDecl.numbered types 1).eq_range rfl

theorem SyntaxTree.toNat_ids_ofTypes {types : List TypeDecl}
    (h : (ofTypes types).ids.length < 2 ^ 32) :
    (ofTypes types).ids.map UInt32.toNat = List.range' 1 (ofTypes types).ids.length := by
  have htoNat := toNat_map_range (k := 1) (Nat.add_comm _ 1 ▸ h : 1 + (ofTypes types).ids.length ≤ _)
  rwa [← ids_ofTypes] at htoNat

end Fabric
