import Fabric.Syntax.Stmt

namespace Fabric

@[elab_as_elim]
theorem Expr.induction {motive : Expr → Prop}
    (literal : ∀ id value, motive (.literal id value))
    (getLocal : ∀ id name, motive (.getLocal id name))
    (getParameter : ∀ id name, motive (.getParameter id name))
    (getField : ∀ id field, motive (.getField id field))
    (unary : ∀ id op operand, motive operand → motive (.unary id op operand))
    (binary : ∀ id op lhs rhs, motive lhs → motive rhs → motive (.binary id op lhs rhs))
    (call : ∀ id target args, (∀ a ∈ args, motive a) → motive (.call id target args))
    (newArray : ∀ id element length, motive length → motive (.newArray id element length))
    (arrayElement : ∀ id array index, motive array → motive index →
      motive (.arrayElement id array index))
    (arrayLength : ∀ id array, motive array → motive (.arrayLength id array))
    (conditional : ∀ id condition ifTrue ifFalse, motive condition → motive ifTrue →
      motive ifFalse → motive (.conditional id condition ifTrue ifFalse))
    (cast : ∀ id type operand, motive operand → motive (.cast id type operand)) (e : Expr) :
    motive e :=
  @Expr.rec motive (fun args ↦ ∀ a ∈ args, motive a) literal getLocal getParameter getField unary
    binary call newArray arrayElement arrayLength conditional cast nofun
    (fun _ _ h hs ↦ List.forall_mem_cons.2 ⟨h, hs⟩) e

@[elab_as_elim]
theorem Stmt.induction {motive : Stmt → Prop}
    (declare : ∀ id name type init, motive (.declare id name type init))
    (assign : ∀ id target value, motive (.assign id target value))
    (store : ∀ id array index value, motive (.store id array index value))
    (branch : ∀ id condition thenBranch elseBranch, motive thenBranch →
      (∀ s ∈ elseBranch, motive s) → motive (.branch id condition thenBranch elseBranch))
    (whileLoop : ∀ id condition body, motive body → motive (.whileLoop id condition body))
    (forLoop : ∀ id init condition step body, (∀ s ∈ init, motive s) → (∀ s ∈ step, motive s) →
      motive body → motive (.forLoop id init condition step body))
    (ret : ∀ id value, motive (.ret id value))
    (eval : ∀ id expr, motive (.eval id expr))
    (block : ∀ id stmts, (∀ s ∈ stmts, motive s) → motive (.block id stmts))
    (breakLoop : ∀ id, motive (.breakLoop id))
    (continueLoop : ∀ id, motive (.continueLoop id))
    (parallel : ∀ id count index call results, motive (.parallel id count index call results))
    (s : Stmt) : motive s :=
  @Stmt.rec motive (fun o ↦ ∀ s ∈ o, motive s) (fun stmts ↦ ∀ s ∈ stmts, motive s) declare assign
    store branch whileLoop forLoop ret eval block breakLoop continueLoop parallel nofun
    (fun _ h _ hs ↦ Option.mem_some.1 hs ▸ h) nofun
    (fun _ _ h hs ↦ List.forall_mem_cons.2 ⟨h, hs⟩) s

namespace Expr

theorem nodesList_eq (es : List Expr) : nodesList es = es.flatMap nodes := by
  induction es with
  | nil => rfl
  | cons e es ih => rw [nodesList, ih, List.flatMap_cons]

/-- An expression is the first of its nodes, and the others are nodes of its operands. -/
theorem nodes_eq (e : Expr) : e.nodes = e :: e.children.flatMap nodes := by
  cases e with
  | call id target args => rw [nodes, nodesList_eq, children]
  | _ => simp [nodes, children]

theorem mem_nodes_self (e : Expr) : e ∈ e.nodes := by
  rw [nodes_eq]
  exact List.mem_cons_self

theorem nodes_subset_of_mem_children {e c : Expr} (h : c ∈ e.children) : c.nodes ⊆ e.nodes := by
  intro x hx
  rw [e.nodes_eq]
  exact List.mem_cons_of_mem _ (List.mem_flatMap.2 ⟨c, h, hx⟩)

theorem induction_children {motive : Expr → Prop}
    (step : ∀ e, (∀ c ∈ e.children, motive c) → motive e) (e : Expr) : motive e := by
  induction e using Expr.induction with
  | literal | getLocal | getParameter | getField => exact step _ nofun
  | unary id op operand ih => exact step _ (by simpa [children] using ih)
  | binary id op lhs rhs ihl ihr => exact step _ (by simpa [children] using ⟨ihl, ihr⟩)
  | call id target args ih => exact step _ ih
  | newArray id element length ih => exact step _ (by simpa [children] using ih)
  | arrayElement id array index iha ihi => exact step _ (by simpa [children] using ⟨iha, ihi⟩)
  | arrayLength id array ih => exact step _ (by simpa [children] using ih)
  | conditional id condition ifTrue ifFalse ihc iht ihf =>
    exact step _ (by simpa [children] using ⟨ihc, iht, ihf⟩)
  | cast id type operand ih => exact step _ (by simpa [children] using ih)

theorem nodes_subset {e c : Expr} (h : c ∈ e.nodes) : c.nodes ⊆ e.nodes := by
  induction e using induction_children with
  | step e ih =>
    rw [e.nodes_eq] at h
    rcases List.mem_cons.1 h with rfl | h
    · exact List.Subset.refl _
    · obtain ⟨x, hx, hc⟩ := List.mem_flatMap.1 h
      exact List.Subset.trans (ih x hx hc) (nodes_subset_of_mem_children hx)

end Expr

namespace Stmt

def ownNodes (s : Stmt) : List Expr :=
  s.exprs.flatMap Expr.nodes

theorem nodesOption_eq (o : Option Stmt) : nodesOption o = o.toList.flatMap nodes := by
  cases o with
  | none => rfl
  | some s => simp [nodesOption]

theorem nodesList_eq (ss : List Stmt) : nodesList ss = ss.flatMap nodes := by
  induction ss with
  | nil => rfl
  | cons s ss ih => rw [nodesList, ih, List.flatMap_cons]

theorem nodes_eq (s : Stmt) : s.nodes = s :: s.children.flatMap nodes := by
  cases s with
  | branch | whileLoop | forLoop | block =>
    simp [nodes, children, nodesOption_eq, nodesList_eq]
  | _ => simp [nodes, children]

theorem mem_nodes_self (s : Stmt) : s ∈ s.nodes := by
  rw [nodes_eq]
  exact List.mem_cons_self

theorem nodes_subset_of_mem_children {s c : Stmt} (h : c ∈ s.children) : c.nodes ⊆ s.nodes := by
  intro x hx
  rw [s.nodes_eq]
  exact List.mem_cons_of_mem _ (List.mem_flatMap.2 ⟨c, h, hx⟩)

/-- Induction over a statement with the hypothesis for the statements directly in it. -/
theorem induction_children {motive : Stmt → Prop}
    (step : ∀ s, (∀ c ∈ s.children, motive c) → motive s) (s : Stmt) : motive s := by
  induction s using Stmt.induction with
  | branch id condition thenBranch elseBranch iht ihe =>
    exact step _ (by simpa [children] using ⟨iht, ihe⟩)
  | whileLoop id condition body ih => exact step _ (by simpa [children] using ih)
  | forLoop id init condition step' body ihi ihs ihb =>
    refine step _ fun c hc ↦ ?_
    simp only [children, List.mem_append, List.mem_cons, Option.mem_toList] at hc
    rcases hc with hc | rfl | hc
    · exact ihi c hc
    · exact ihb
    · exact ihs c hc
  | block id stmts ih => exact step _ ih
  | _ => exact step _ nofun

theorem nodes_subset {s c : Stmt} (h : c ∈ s.nodes) : c.nodes ⊆ s.nodes := by
  induction s using induction_children with
  | step s ih =>
    rw [s.nodes_eq] at h
    rcases List.mem_cons.1 h with rfl | h
    · exact List.Subset.refl _
    · obtain ⟨x, hx, hc⟩ := List.mem_flatMap.1 h
      exact List.Subset.trans (ih x hx hc) (nodes_subset_of_mem_children hx)

end Stmt

end Fabric
