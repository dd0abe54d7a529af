import Fabric.Proofs.Syntax.Numbering
import Fabric.Syntax.Parents

namespace Fabric

open scoped List

inductive Node
  | type (d : TypeDecl)
  | field (f : FieldDecl)
  | method (m : MethodDecl)
  | stmt (s : Stmt)
  | expr (e : Expr)

namespace Node

def id : Node → NodeId
  | .type d => d.id
  | .field f => f.id
  | .method m => m.id
  | .stmt s => s.id
  | .expr e => e.id

def kind : Node → NodeKind
  | .type _ => .type
  | .field _ => .field
  | .method _ => .method
  | .stmt _ => .statement
  | .expr _ => .expression

def children : Node → List Node
  | .type d => d.fields.map .field ++ d.methods.map .method
  | .field f => f.initializer.toList.map .expr
  | .method m => m.body.toList.map .stmt
  | .stmt s => s.exprs.map .expr ++ s.children.map .stmt
  | .expr e => e.children.map .expr

def ids : Node → List NodeId
  | .type d => d.ids
  | .field f => f.ids
  | .method m => m.ids
  | .stmt s => s.ids
  | .expr e => e.ids

theorem ids_eq (x : Node) : x.ids = x.id :: x.children.flatMap ids := by
  cases x with
  | type d => simp [ids, id, children, TypeDecl.ids, List.flatMap_map]
  | field f => simp [ids, id, children, FieldDecl.ids, List.flatMap_map]
  | method m => simp [ids, id, children, MethodDecl.ids, List.flatMap_map]
  | stmt s => simp [ids, id, children, s.ids_eq, Stmt.headIds, List.flatMap_map]
  | expr e => simp [ids, id, children, e.ids_eq, List.flatMap_map]

end Node

inductive TypeDecl.Has (d : TypeDecl) : Node → List Node → Prop
  | self : d.Has (.type d) []
  | child {x y : Node} {above : List Node} : d.Has x above → y ∈ x.children → d.Has y (x :: above)

namespace TypeDecl.Has

variable {d : TypeDecl} {x y : Node} {above : List Node}

/-- The number of a node comes after those of the nodes around it. -/
theorem ids_sublist (h : d.Has x above) : (above.map Node.id).reverse ++ x.ids <+ d.ids := by
  induction h with
  | self => exact List.Sublist.refl _
  | @child x y above _ hy ih =>
    rw [List.map_cons, List.reverse_cons, List.append_assoc, List.singleton_append]
    rw [x.ids_eq] at ih
    refine List.Sublist.trans ?_ ih
    exact (((List.sublist_flatten_of_mem (List.mem_map_of_mem hy)).cons_cons _).append_left _)

theorem getLast?_eq (h : d.Has x above) : (x :: above).getLast? = some (.type d) := by
  induction h with
  | self => rfl
  | child _ _ ih => rw [List.getLast?_cons_cons, ih]

theorem kind_ne_type (h : d.Has x above) (hy : y ∈ x.children) : y.kind ≠ .type := by
  cases x <;> simp [Node.children] at hy <;> grind [Node.kind]

theorem find?_type (h : d.Has x above) :
    (x :: above).find? (fun a ↦ a.kind = .type) = some (.type d) := by
  induction h with
  | self => rfl
  | child h hy ih => rw [List.find?_cons_of_neg (by simpa using h.kind_ne_type hy), ih]

theorem of_nodes_expr {e c : Expr} (hc : c ∈ e.nodes) (h : d.Has (.expr e) above) :
    ∃ between, (∀ a ∈ between, a.kind = .expression) ∧ d.Has (.expr c) (between ++ above) := by
  induction e using Expr.induction_children generalizing above with
  | step e ih =>
    rw [e.nodes_eq] at hc
    rcases List.mem_cons.1 hc with rfl | hc
    · exact ⟨[], List.forall_mem_nil _, h⟩
    · obtain ⟨x, hx, hc⟩ := List.mem_flatMap.1 hc
      obtain ⟨between, hkind, hc⟩ := ih x hx hc (h.child (List.mem_map_of_mem hx))
      refine ⟨between ++ [.expr e], ?_, by simpa using hc⟩
      exact List.forall_mem_append.2 ⟨hkind, List.forall_mem_singleton.2 rfl⟩

theorem of_nodes_stmt {s t : Stmt} (ht : t ∈ s.nodes) (h : d.Has (.stmt s) above) :
    ∃ above', d.Has (.stmt t) above' := by
  induction s using Stmt.induction_children generalizing above with
  | step s ih =>
    rw [s.nodes_eq] at ht
    rcases List.mem_cons.1 ht with rfl | ht
    · exact ⟨above, h⟩
    · obtain ⟨c, hc, ht⟩ := List.mem_flatMap.1 ht
      exact ih c hc ht (h.child (List.mem_append_right _ (List.mem_map_of_mem hc)))

/-- A node of an expression of a statement has only expressions between it and the statement. -/
theorem of_ownNodes {m : MethodDecl} (hm : m ∈ d.methods) {body s : Stmt} (hbody : m.body = some body)
    (hs : s ∈ body.nodes) {e : Expr} (he : e ∈ s.ownNodes) :
    ∃ between above, (∀ a ∈ between, a.kind = .expression) ∧
      d.Has (.expr e) (between ++ .stmt s :: above) := by
  have hmethod : d.Has (.method m) [.type d] :=
    self.child (List.mem_append_right _ (List.mem_map_of_mem hm))
  have hbody : d.Has (.stmt body) [.method m, .type d] :=
    hmethod.child (by simp [Node.children, hbody])
  obtain ⟨above, hs⟩ := hbody.of_nodes_stmt hs
  obtain ⟨root, hroot, he⟩ := List.mem_flatMap.1 he
  obtain ⟨between, hkind, he⟩ := of_nodes_expr he
    (hs.child (List.mem_append_left _ (List.mem_map_of_mem hroot)))
  exact ⟨between, above, hkind, he⟩

end TypeDecl.Has

namespace ParentIndex

theorem sublist_flatMap {α β : Type} {f : α → List β} {a : α} {as : List α} (h : a ∈ as) :
    f a <+ as.flatMap f :=
  List.sublist_flatten_of_mem (List.mem_map_of_mem h)

theorem argEntries_eq (parent : NodeId) (es : List Expr) :
    argEntries parent es = es.flatMap (exprEntries parent) := by
  induction es with
  | nil => rfl
  | cons e es ih => rw [argEntries, ih, List.flatMap_cons]

theorem exprEntries_eq (parent : NodeId) (e : Expr) :
    exprEntries parent e =
      ⟨e.id, some parent, .expression⟩ :: e.children.flatMap (exprEntries e.id) := by
  cases e with
  | call id target args =>
    rw [exprEntries, argEntries_eq]
    rfl
  | _ => simp [exprEntries, Expr.children, Expr.id]

theorem optionEntries_eq (parent : NodeId) (o : Option Stmt) :
    optionEntries parent o = o.toList.flatMap (stmtEntries parent) := by
  cases o with
  | none => rfl
  | some s => simp [optionEntries]

theorem blockEntries_eq (parent : NodeId) (ss : List Stmt) :
    blockEntries parent ss = ss.flatMap (stmtEntries parent) := by
  induction ss with
  | nil => rfl
  | cons s ss ih => rw [blockEntries, ih, List.flatMap_cons]

theorem stmtEntries_eq (parent : NodeId) (s : Stmt) :
    stmtEntries parent s = stmtHead parent s ++ s.children.flatMap (stmtEntries s.id) := by
  cases s with
  | branch | whileLoop | forLoop | block =>
    simp [stmtEntries, Stmt.children, Stmt.id, optionEntries_eq, blockEntries_eq]
  | _ => simp [stmtEntries, Stmt.children]

theorem map_id_exprEntries (parent : NodeId) (e : Expr) :
    (exprEntries parent e).map ParentEntry.id = e.ids := by
  induction e using Expr.induction_children generalizing parent with
  | step e ih =>
    rw [exprEntries_eq, List.map_cons, List.map_flatMap, e.ids_eq]
    exact congrArg (e.id :: ·) (List.flatMap_congr fun c hc ↦ ih c hc e.id)

theorem map_id_stmtEntries (parent : NodeId) (s : Stmt) :
    (stmtEntries parent s).map ParentEntry.id = s.ids := by
  induction s using Stmt.induction_children generalizing parent with
  | step s ih =>
    have hhead : (stmtHead parent s).map ParentEntry.id = s.headIds := by
      simp only [stmtHead, List.map_cons, List.map_flatMap, map_id_exprEntries]
      rfl
    rw [stmtEntries_eq, List.map_append, hhead, List.map_flatMap, s.ids_eq]
    exact congrArg (s.headIds ++ ·) (List.flatMap_congr fun c hc ↦ ih c hc s.id)

theorem map_id_ofTree (t : SyntaxTree) : (ofTree t).entries.map ParentEntry.id = t.ids := by
  have hfield (parent : NodeId) (f : FieldDecl) :
      (fieldEntries parent f).map ParentEntry.id = f.ids := by
    simp [fieldEntries, FieldDecl.ids, List.map_flatMap, map_id_exprEntries]
  have hmethod (parent : NodeId) (m : MethodDecl) :
      (methodEntries parent m).map ParentEntry.id = m.ids := by
    simp [methodEntries, MethodDecl.ids, optionEntries_eq, List.map_flatMap, map_id_stmtEntries]
  have htype (d : TypeDecl) : (typeEntries d).map ParentEntry.id = d.ids := by
    simp [typeEntries, TypeDecl.ids, List.map_flatMap, hfield, hmethod]
  simp only [ofTree, List.map_flatMap, htype]
  rfl

def nodeEntries (parent : NodeId) : Node → List ParentEntry
  | .type d => typeEntries d
  | .field f => fieldEntries parent f
  | .method m => methodEntries parent m
  | .stmt s => stmtEntries parent s
  | .expr e => exprEntries parent e

theorem nodeEntries_type (d : TypeDecl) (parent : NodeId) :
    nodeEntries parent (.type d) =
      ⟨d.id, none, .type⟩ :: (Node.type d).children.flatMap (nodeEntries d.id) := by
  simp [nodeEntries, typeEntries, Node.children, List.flatMap_map]

theorem nodeEntries_eq {x : Node} (hx : x.kind ≠ .type) (parent : NodeId) :
    nodeEntries parent x =
      ⟨x.id, some parent, x.kind⟩ :: x.children.flatMap (nodeEntries x.id) := by
  cases x with
  | type d => exact absurd rfl hx
  | field f => simp [nodeEntries, fieldEntries, Node.children, Node.id, Node.kind, List.flatMap_map]
  | method m =>
    simp [nodeEntries, methodEntries, optionEntries_eq, Node.children, Node.id, Node.kind,
      List.flatMap_map]
  | stmt s =>
    rw [nodeEntries, stmtEntries_eq]
    simp [nodeEntries, stmtHead, Node.children, Node.id, Node.kind, List.flatMap_map]
  | expr e =>
    rw [nodeEntries, exprEntries_eq]
    simp [nodeEntries, Node.children, Node.id, Node.kind, List.flatMap_map]

variable {p : ParentIndex}

/-- If numbers are different, an entry is found by its number. -/
theorem entry?_of_mem (hn : (p.entries.map ParentEntry.id).Nodup) {x : ParentEntry}
    (hx : x ∈ p.entries) : p.entry? x.id = some x := by
  cases hy : p.entry? x.id with
  | none =>
    have hno := List.find?_eq_none.1 hy x hx
    exact absurd (decide_eq_true rfl) hno
  | some y =>
    have hid : y.id = x.id := by simpa using List.find?_some hy
    rw [List.inj_on_of_nodup_map hn (List.mem_of_find?_eq_some hy) hx hid]

end ParentIndex

namespace TypeDecl.Has

variable {t : SyntaxTree} {d : TypeDecl} {x : Node} {above : List Node}

theorem mem_entries (hd : d ∈ t.types) (h : d.Has x above) :
    ⟨x.id, above.head?.map Node.id, x.kind⟩ ∈ (ParentIndex.ofTree t).entries ∧
      x.children.flatMap (ParentIndex.nodeEntries x.id) ⊆ (ParentIndex.ofTree t).entries := by
  induction h with
  | self =>
    have htype : ParentIndex.nodeEntries 0 (.type d) ⊆ (ParentIndex.ofTree t).entries := fun _ he ↦
      List.mem_flatMap.2 ⟨d, hd, he⟩
    rw [ParentIndex.nodeEntries_type] at htype
    exact List.cons_subset.1 htype
  | @child x y above h hy ih =>
    have hsub : ParentIndex.nodeEntries x.id y ⊆ (ParentIndex.ofTree t).entries := fun _ he ↦
      ih.2 (List.mem_flatMap.2 ⟨y, hy, he⟩)
    rw [ParentIndex.nodeEntries_eq (h.kind_ne_type hy)] at hsub
    exact List.cons_subset.1 hsub

variable (hn : t.ids.Nodup) (hd : d ∈ t.types) (h : d.Has x above)

include hn hd h

theorem entry?_eq :
    ParentIndex.entry? (ParentIndex.ofTree t) x.id = some ⟨x.id, above.head?.map Node.id, x.kind⟩ :=
  ParentIndex.entry?_of_mem (ParentIndex.map_id_ofTree t ▸ hn) (h.mem_entries hd).1

theorem kind?_eq : (ParentIndex.ofTree t).kind? x.id = some x.kind := by
  rw [ParentIndex.kind?, h.entry?_eq hn hd, Option.map_some]

theorem parent?_eq : (ParentIndex.ofTree t).parent? x.id = above.head?.map Node.id := by
  rw [ParentIndex.parent?, h.entry?_eq hn hd, Option.bind_some]

theorem ancestorsUpTo_eq {fuel : Nat} (hfuel : above.length ≤ fuel) :
    (ParentIndex.ofTree t).ancestorsUpTo fuel x.id = above.map Node.id := by
  induction h generalizing fuel with
  | self =>
    cases fuel with
    | zero => rfl
    | succ fuel =>
      rw [ParentIndex.ancestorsUpTo, self.parent?_eq hn hd]
      rfl
  | @child x y above h hy ih =>
    obtain ⟨fuel, rfl⟩ := Nat.exists_eq_add_of_le' (Nat.one_le_of_lt hfuel)
    rw [ParentIndex.ancestorsUpTo, (h.child hy).parent?_eq hn hd]
    exact congrArg (x.id :: ·) (ih (Nat.le_of_succ_le_succ hfuel))

theorem ancestors_eq : (ParentIndex.ofTree t).ancestors x.id = above.map Node.id := by
  refine h.ancestorsUpTo_eq hn hd ?_
  have hlen := h.ids_sublist.length_le
  have htree : d.ids.length ≤ t.ids.length := (ParentIndex.sublist_flatMap hd).length_le
  rw [← ParentIndex.map_id_ofTree, List.length_map] at htree
  simp only [List.length_append, List.length_reverse, List.length_map] at hlen
  omega

/-- The nearest node of a kind is looked for among the nodes around a node. -/
theorem enclosing_eq (kind : NodeKind) :
    (ParentIndex.ofTree t).enclosing x.id kind =
      (above.find? fun a ↦ a.kind = kind).map Node.id := by
  have hfind : (above.map Node.id).find?
      (fun a ↦ (ParentIndex.ofTree t).kind? a = some kind) =
        (above.find? fun a ↦ a.kind = kind).map Node.id := by
    induction h with
    | self => rfl
    | @child x y above h _ ih =>
      rw [List.map_cons, List.find?_cons, List.find?_cons, h.kind?_eq hn hd, ih]
      by_cases hkind : x.kind = kind
      · simp [hkind]
      · simp [hkind]
  rw [ParentIndex.enclosing, h.ancestors_eq hn hd, hfind]

end TypeDecl.Has

end Fabric
