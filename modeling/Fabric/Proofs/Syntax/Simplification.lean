import Fabric.Proofs.Syntax.Numbering

namespace Fabric

open scoped List

theorem sublist_flatMap_map {α β : Type} {f : α → α} {g : α → List β} {as : List α}
    (h : ∀ a ∈ as, g (f a) <+ g a) : (as.map f).flatMap g <+ as.flatMap g := by
  induction as with
  | nil => exact List.Sublist.refl _
  | cons a as ih =>
    obtain ⟨ha, has⟩ := List.forall_mem_cons.1 h
    rw [List.map_cons, List.flatMap_cons, List.flatMap_cons]
    exact ha.append (ih has)

namespace Expr

def callee? : Expr → Option MemberRef
  | .call _ target _ => some target
  | _ => none

def mark (e : Expr) : NodeId × Option MemberRef := (e.id, e.callee?)

def marks (e : Expr) : List (NodeId × Option MemberRef) := e.nodes.map mark

theorem marks_eq (e : Expr) : e.marks = e.mark :: e.children.flatMap marks := by
  unfold marks
  rw [e.nodes_eq, List.map_cons, List.map_flatMap]

theorem map_fst_marks (e : Expr) : e.marks.map Prod.fst = e.ids := by
  unfold marks ids
  rw [List.map_map]
  rfl

def KeepsMarks (f : Expr → Option Expr) : Prop := ∀ e e', f e = some e' → e'.marks <+ e.marks

theorem sublist_flatMap_marks {es es' : List Expr}
    (h : List.Forall₂ (fun a b ↦ a.marks <+ b.marks) es es') :
    es.flatMap marks <+ es'.flatMap marks := by
  induction h with
  | nil => exact List.Sublist.refl _
  | cons h _ ih =>
    rw [List.flatMap_cons, List.flatMap_cons]
    exact h.append ih

variable {f : Expr → Option Expr}

/-- A node with simplified operands may be replaced. -/
theorem marks_replace (hf : KeepsMarks f) {e e' : Expr} (n : Nat) (hmark : e'.mark = e.mark)
    (h : List.Forall₂ (fun a b ↦ a.marks <+ b.marks) e'.children e.children) :
    (replace f e' n).1.marks <+ e.marks := by
  have hsub : e'.marks <+ e.marks := by
    rw [e'.marks_eq, e.marks_eq, hmark]
    exact (sublist_flatMap_marks h).cons_cons _
  unfold replace
  split
  next hr => exact (hf _ _ hr).trans hsub
  next => exact hsub

theorem marks_simplifyList {es : List Expr}
    (h : ∀ e ∈ es, (e.simplify f).1.marks <+ e.marks) :
    List.Forall₂ (fun a b ↦ a.marks <+ b.marks) (simplifyList f es).1 es := by
  induction es with
  | nil =>
    rw [simplifyList]
    exact .nil
  | cons e es ih =>
    obtain ⟨he, hes⟩ := List.forall_mem_cons.1 h
    rw [simplifyList]
    exact .cons he (ih hes)

theorem marks_simplify (hf : KeepsMarks f) (e : Expr) : (e.simplify f).1.marks <+ e.marks := by
  induction e using Expr.induction with
  | literal | getLocal | getParameter | getField =>
    rw [simplify]
    exact marks_replace hf _ rfl .nil
  | unary id op operand ih =>
    rw [simplify]
    exact marks_replace hf _ rfl (.cons ih .nil)
  | binary id op lhs rhs ihl ihr =>
    rw [simplify]
    exact marks_replace hf _ rfl (.cons ihl (.cons ihr .nil))
  | call id target args ih =>
    rw [simplify]
    exact marks_replace hf _ rfl (marks_simplifyList ih)
  | newArray id element length ih =>
    rw [simplify]
    exact marks_replace hf _ rfl (.cons ih .nil)
  | arrayElement id array index iha ihi =>
    rw [simplify]
    exact marks_replace hf _ rfl (.cons iha (.cons ihi .nil))
  | arrayLength id array ih =>
    rw [simplify]
    exact marks_replace hf _ rfl (.cons ih .nil)
  | conditional id condition ifTrue ifFalse ihc iht ihf =>
    rw [simplify]
    exact marks_replace hf _ rfl (.cons ihc (.cons iht (.cons ihf .nil)))
  | cast id type operand ih =>
    rw [simplify]
    exact marks_replace hf _ rfl (.cons ih .nil)

theorem ids_simplify (hf : KeepsMarks f) (e : Expr) : (e.simplify f).1.ids <+ e.ids := by
  rw [← map_fst_marks, ← map_fst_marks]
  exact (e.marks_simplify hf).map Prod.fst

/-- A literal may stand for an expression that is no call. -/
theorem marks_literal {e : Expr} (he : e.callee? = none) (l : Literal) :
    (Expr.literal e.id l).marks <+ e.marks := by
  have hmark : (Expr.literal e.id l).mark = e.mark := by
    rw [mark, mark, he]
    rfl
  rw [marks_eq, marks_eq, hmark]
  exact (List.nil_sublist _).cons_cons _

theorem keepsMarks_foldStep (fields locals : Constants) : KeepsMarks (foldStep fields locals) := by
  have hliteral {e e' : Expr}
      (h : (e.foldLiteral fields locals).map (fun l ↦ .literal e.id l) = some e') :
      e'.marks <+ e.marks := by
    obtain ⟨l, hl, rfl⟩ := Option.map_eq_some_iff.1 h
    refine marks_literal ?_ l
    cases e with
    | call => exact nomatch hl
    | _ => rfl
  intro e e' h
  cases e with
  | conditional id condition ifTrue ifFalse =>
    rw [marks_eq (.conditional id condition ifTrue ifFalse)]
    simp only [children, List.flatMap_cons, List.flatMap_nil, List.append_nil]
    simp only [foldStep] at h
    split at h
    · obtain rfl := Option.some.inj h
      exact ((List.sublist_append_left _ _).trans (List.sublist_append_right _ _)).cons _
    · obtain rfl := Option.some.inj h
      exact ((List.sublist_append_right _ _).trans (List.sublist_append_right _ _)).cons _
    · cases h
  | _ => exact hliteral h

end Expr

theorem SyntaxTree.keepsMarks_foldLengthStep (s : LengthScope) :
    Expr.KeepsMarks (foldLengthStep s) := by
  intro e e' h
  cases e with
  | arrayLength id array =>
    simp only [foldLengthStep] at h
    split at h
    · split at h
      · obtain rfl := Option.some.inj h
        exact Expr.marks_literal (e := .arrayLength id array) rfl _
      · exact nomatch h
    · exact nomatch h
  | _ => exact nomatch h

namespace Stmt

variable (f : Expr → Option Expr)

theorem simplifyOption_fst (o : Option Expr) :
    (simplifyOption f o).1 = o.map fun e ↦ (e.simplify f).1 := by
  cases o <;> rfl

theorem simplifyStmtOption_fst (o : Option Stmt) :
    (simplifyStmtOption f o).1 = o.map fun s ↦ (s.simplify f).1 := by
  cases o <;> simp [simplifyStmtOption]

theorem simplifyList_fst (ss : List Stmt) :
    (simplifyList f ss).1 = ss.map fun s ↦ (s.simplify f).1 := by
  induction ss with
  | nil => rw [simplifyList, List.map_nil]
  | cons s ss ih => rw [simplifyList, List.map_cons, ← ih]

@[simp] theorem id_simplify (s : Stmt) : (s.simplify f).1.id = s.id := by
  cases s <;> simp [simplify, Stmt.id]

theorem exprs_simplify (s : Stmt) :
    (s.simplify f).1.exprs = s.exprs.map fun e ↦ (e.simplify f).1 := by
  cases s <;> simp [simplify, exprs, simplifyOption_fst, Option.toList_map]

theorem children_simplify (s : Stmt) :
    (s.simplify f).1.children = s.children.map fun c ↦ (c.simplify f).1 := by
  cases s <;>
    simp [simplify, children, simplifyStmtOption_fst, simplifyList_fst, Option.toList_map]

theorem nodes_simplify (s : Stmt) :
    (s.simplify f).1.nodes = s.nodes.map fun t ↦ (t.simplify f).1 := by
  induction s using induction_children with
  | step s ih =>
    rw [nodes_eq, nodes_eq, children_simplify, List.map_cons, List.flatMap_map, List.map_flatMap]
    exact congrArg _ (List.flatMap_congr ih)

variable {f}

theorem ids_simplify (hf : Expr.KeepsMarks f) (s : Stmt) : (s.simplify f).1.ids <+ s.ids := by
  unfold ids
  rw [nodes_simplify]
  refine sublist_flatMap_map fun t _ ↦ ?_
  rw [headIds, id_simplify, exprs_simplify]
  exact (sublist_flatMap_map fun e _ ↦ e.ids_simplify hf).cons_cons _

end Stmt

structure OwnedCall where
  owner : NodeId
  call : NodeId
  target : MemberRef

namespace Stmt

variable {f : Expr → Option Expr}

def ownCalls (s : Stmt) : List OwnedCall :=
  (s.exprs.flatMap Expr.marks).filterMap fun m ↦ m.2.map fun target ↦ ⟨s.id, m.1, target⟩

def ownedCalls (s : Stmt) : List OwnedCall := s.nodes.flatMap ownCalls

theorem ownedCalls_simplify (hf : Expr.KeepsMarks f) (s : Stmt) :
    (s.simplify f).1.ownedCalls <+ s.ownedCalls := by
  unfold ownedCalls
  rw [nodes_simplify]
  refine sublist_flatMap_map fun t _ ↦ ?_
  rw [ownCalls, id_simplify, exprs_simplify]
  exact (sublist_flatMap_map fun e _ ↦ e.marks_simplify hf).filterMap _

theorem mem_ownedCalls {s : Stmt} {c : OwnedCall} :
    c ∈ s.ownedCalls ↔ ∃ t ∈ s.nodes, t.id = c.owner ∧
      ∃ e ∈ t.ownNodes, e.id = c.call ∧ e.callee? = some c.target := by
  have hown (t : Stmt) : t.exprs.flatMap Expr.marks = t.ownNodes.map Expr.mark := by
    rw [ownNodes, List.map_flatMap]
    rfl
  simp only [ownedCalls, ownCalls, List.mem_flatMap, List.mem_filterMap, hown, List.mem_map]
  constructor
  · rintro ⟨t, ht, _, ⟨e, he, rfl⟩, hc⟩
    obtain ⟨target, htarget, rfl⟩ := Option.map_eq_some_iff.1 hc
    exact ⟨t, ht, rfl, e, he, rfl, htarget⟩
  · rintro ⟨t, ht, hid, e, he, hcall, htarget⟩
    refine ⟨t, ht, e.mark, ⟨e, he, rfl⟩, Option.map_eq_some_iff.2 ⟨c.target, htarget, ?_⟩⟩
    rw [hid, Expr.mark, hcall]

end Stmt

end Fabric
