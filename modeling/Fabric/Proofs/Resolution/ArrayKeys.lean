import Fabric.Proofs.Resolution.Rounds
import Mathlib.Data.List.GetD

namespace Fabric

def TypeDecl.signature (d : TypeDecl) : String × List (String × List Parameter) :=
  (d.fullName, d.methods.map fun m ↦ (m.name, m.parameters))

namespace SyntaxTree

def signatures (t : SyntaxTree) : List (String × List (String × List Parameter)) :=
  t.types.map TypeDecl.signature

end SyntaxTree

theorem TypeDecl.findMethod_congr {d d' : TypeDecl} (h : d'.signature = d.signature) (name : String)
    (types : List TypeRef) : d'.findMethod name types = d.findMethod name types := by
  have hpos (p : String × List Parameter → Bool) (d : TypeDecl) :
      findPos (fun m ↦ p (m.name, m.parameters)) d.methods = d.signature.2.findIdx? p := by
    rw [signature, List.findIdx?_map]
    rfl
  have heq (p : String × List Parameter → Bool) :
      findPos (fun m ↦ p (m.name, m.parameters)) d'.methods =
        findPos (fun m ↦ p (m.name, m.parameters)) d.methods := by
    rw [hpos, hpos, h]
  have hown := heq fun s ↦ s.1 = name && s.2.map Parameter.type = types
  have hother := heq fun s ↦
    s.2.map Parameter.type = types && (nameAlternates s.1).contains name
  unfold findMethod MethodDecl.parameterTypes
  rw [hown, hother]

namespace SyntaxTree

section

variable {t t' : SyntaxTree}

theorem resolveCall_congr (h : t'.signatures = t.signatures) (target : MemberRef) :
    t'.resolveCall target = t.resolveCall target := by
  have hpos (t : SyntaxTree) : t.typePosition target.declaringType =
      t.signatures.findIdx? fun s ↦ s.1 = target.declaringType := by
    rw [signatures, List.findIdx?_map]
    rfl
  unfold resolveCall
  rw [hpos, hpos, h]
  cases t.signatures.findIdx? fun s ↦ s.1 = target.declaringType with
  | none => rfl
  | some i =>
    have htype : t'.types[i]?.map TypeDecl.signature = t.types[i]?.map TypeDecl.signature := by
      rw [← List.getElem?_map, ← List.getElem?_map]
      exact congrArg (·[i]?) h
    cases hd : t.types[i]? with
    | none =>
      rw [hd, Option.map_none, Option.map_eq_none_iff] at htype
      simp [htype, hd]
    | some d =>
      rw [hd, Option.map_some] at htype
      obtain ⟨d', hd', hsame⟩ := Option.map_eq_some_iff.1 htype
      simp [hd', hd, TypeDecl.findMethod_congr hsame]

theorem signature_declaringType (h : t'.signatures = t.signatures) (m : MemberHandle) :
    (t'.declaringType m).signature = (t.declaringType m).signature := by
  have hget (t : SyntaxTree) : (t.declaringType m).signature =
      t.signatures.getD m.typePos (default : TypeDecl).signature :=
    (List.getD_map _ _ _).symm
  rw [hget, hget, h]

theorem method_congr (h : t'.signatures = t.signatures) (m : MemberHandle) :
    (t'.method m).name = (t.method m).name ∧
      (t'.method m).parameters = (t.method m).parameters := by
  have hget (t : SyntaxTree) : ((t.method m).name, (t.method m).parameters) =
      (t.declaringType m).signature.2.getD m.methodPos
        ((default : MethodDecl).name, (default : MethodDecl).parameters) :=
    (List.getD_map _ _ fun m : MethodDecl ↦ (m.name, m.parameters)).symm
  exact Prod.mk.inj (by rw [hget, hget, signature_declaringType h])

theorem memberFullName_congr (h : t'.signatures = t.signatures) (m : MemberHandle) :
    t'.memberFullName m = t.memberFullName m := by
  obtain ⟨hname, hparameters⟩ := method_congr h m
  have htype : (t'.declaringType m).fullName = (t.declaringType m).fullName :=
    congrArg Prod.fst (signature_declaringType h m)
  unfold memberFullName TypeDecl.memberFullName MethodDecl.suffix MethodDecl.parameterTypes
  rw [htype, hname, hparameters]

end

theorem signatures_mapInitializers (f : Expr → Expr × Nat) (t : SyntaxTree) :
    (t.mapInitializers f).1.signatures = t.signatures := by
  unfold signatures mapInitializers
  dsimp only
  rw [mapCount_fst, List.map_map]
  rfl

theorem signatures_mapBodies (f : String → Stmt → Stmt × Nat) (t : SyntaxTree) :
    (t.mapBodies f).1.signatures = t.signatures := by
  unfold signatures mapBodies
  dsimp only
  rw [mapCount_fst, List.map_map]
  refine List.map_congr_left fun d _ ↦ ?_
  rw [Function.comp_apply, TypeDecl.signature, TypeDecl.signature]
  dsimp only
  rw [mapCount_fst, List.map_map]
  refine congrArg _ (List.map_congr_left fun m _ ↦ ?_)
  rw [Function.comp_apply]
  split <;> rfl

end SyntaxTree

def Stmt.arrayKeys (member : String) : Stmt → List String
  | .declare _ name _ _ => [memberArrayKey member name]
  | .assign _ (.toLocal name) _ | .assign _ (.toParameter name) _ => [memberArrayKey member name]
  | .assign _ (.toField field) _ => [fieldArrayKey field.declaringType field.name]
  | .ret _ _ => [returnArrayKey member]
  | .parallel _ _ _ _ results => results.toList.map (memberArrayKey member)
  | _ => []

theorem Stmt.length_arrayKeys_le (member : String) (s : Stmt) :
    (s.arrayKeys member).length ≤ 1 := by
  unfold arrayKeys
  split <;> simp

theorem Stmt.arrayKeys_simplify (f : Expr → Option Expr) (member : String) (s : Stmt) :
    (s.simplify f).1.arrayKeys member = s.arrayKeys member := by
  cases s with
  | assign id target value => cases target <;> simp [simplify, arrayKeys]
  | _ => simp [simplify, arrayKeys]

def Expr.arrayKeys (t : SyntaxTree) (e : Expr) : List String :=
  match e.callee? with
  | none => []
  | some target =>
    match t.resolveCall target with
    | none => []
    | some h => ((t.method h).parameters.take e.children.length).map fun p ↦
        memberArrayKey (t.memberFullName h) p.name

theorem Expr.length_arrayKeys_le (t : SyntaxTree) (e : Expr) :
    (e.arrayKeys t).length ≤ e.children.length := by
  unfold arrayKeys
  split
  · exact Nat.zero_le _
  · split
    · exact Nat.zero_le _
    · rw [List.length_map, List.length_take]
      exact Nat.min_le_left _ _

namespace SyntaxTree

def bodyKeys (t : SyntaxTree) (member : String) (body : Stmt) : List String :=
  body.nodes.flatMap (Stmt.arrayKeys member) ++ body.exprNodes.flatMap (Expr.arrayKeys t)

def typeKeys (t : SyntaxTree) (d : TypeDecl) : List String :=
  d.fields.map (fun f ↦ fieldArrayKey d.fullName f.name) ++
    d.methods.flatMap fun m ↦ m.body.toList.flatMap (t.bodyKeys (d.memberFullName m))

def arrayKeys (t : SyntaxTree) : List String := t.types.flatMap t.typeKeys

end SyntaxTree

theorem LengthScope.key_of_observeStmt {s : LengthScope} {stmt : Stmt} {p : String × UInt32}
    (h : s.observeStmt stmt = some p) : p.1 ∈ stmt.arrayKeys s.member := by
  cases stmt with
  | declare id name type init | ret id init =>
    cases init with
    | none => cases h
    | some e =>
      obtain ⟨n, -, rfl⟩ := Option.map_eq_some_iff.1 h
      exact List.mem_singleton_self _
  | assign id target value =>
    obtain ⟨n, -, rfl⟩ := Option.map_eq_some_iff.1 h
    cases target <;> exact List.mem_singleton_self _
  | parallel id count index call results =>
    cases results with
    | none => cases h
    | some name =>
      obtain ⟨n, -, rfl⟩ := Option.map_eq_some_iff.1 h
      exact List.mem_singleton_self _
  | _ => cases h

theorem mem_take_of_mem_zip {α β : Type} {a : α} {b : β} {as : List α} {bs : List β}
    (h : (a, b) ∈ as.zip bs) : a ∈ as.take bs.length := by
  induction as generalizing bs with
  | nil => exact absurd h List.not_mem_nil
  | cons a' as ih =>
    cases bs with
    | nil => exact absurd h List.not_mem_nil
    | cons b' bs =>
      rcases List.mem_cons.1 h with heq | h
      · exact (Prod.mk.inj heq).1 ▸ List.mem_cons_self
      · exact List.mem_cons_of_mem _ (ih h)

theorem LengthScope.key_of_observeCall {s : LengthScope} {e : Expr} {p : String × UInt32}
    (h : p ∈ s.observeCall e) : p.1 ∈ e.arrayKeys s.tree := by
  cases e with
  | call id target args =>
    rw [observeCall] at h
    cases hcallee : s.tree.resolveCall target with
    | none =>
      rw [hcallee] at h
      cases h
    | some callee =>
      rw [hcallee] at h
      obtain ⟨⟨q, arg⟩, hmem, hq⟩ := List.mem_filterMap.1 h
      dsimp only at hq
      split at hq
      · obtain ⟨n, -, rfl⟩ := Option.map_eq_some_iff.1 hq
        simp only [Expr.arrayKeys, Expr.callee?, hcallee]
        exact List.mem_map_of_mem (mem_take_of_mem_zip hmem)
      · cases hq
  | _ => cases h

theorem SyntaxTree.key_of_observed {t : SyntaxTree} {table : ArrayTable} {p : String × UInt32}
    (h : p ∈ t.types.flatMap (t.observeType table)) : p.1 ∈ t.arrayKeys := by
  obtain ⟨d, hd, hp⟩ := List.mem_flatMap.1 h
  refine List.mem_flatMap.2 ⟨d, hd, ?_⟩
  rcases List.mem_append.1 hp with hp | hp
  · obtain ⟨f, hf, hp⟩ := List.mem_filterMap.1 hp
    obtain ⟨n, -, rfl⟩ := Option.map_eq_some_iff.1 hp
    exact List.mem_append_left _ (List.mem_map_of_mem hf)
  · obtain ⟨m, hm, hp⟩ := List.mem_flatMap.1 hp
    obtain ⟨body, hbody, hp⟩ := List.mem_flatMap.1 hp
    refine List.mem_append_right _ (List.mem_flatMap.2 ⟨m, hm, List.mem_flatMap.2 ⟨body, hbody, ?_⟩⟩)
    rcases List.mem_append.1 hp with hp | hp
    · obtain ⟨s, hs, hp⟩ := List.mem_filterMap.1 hp
      have hkey := LengthScope.key_of_observeStmt hp
      exact List.mem_append_left _ (List.mem_flatMap.2 ⟨s, hs, hkey⟩)
    · obtain ⟨e, he, hp⟩ := List.mem_flatMap.1 hp
      have hkey := LengthScope.key_of_observeCall hp
      exact List.mem_append_right _ (List.mem_flatMap.2 ⟨e, he, hkey⟩)

theorem length_flatMap_le {α β γ : Type} {g : α → List β} {k : α → List γ} {as : List α}
    (h : ∀ a ∈ as, (g a).length ≤ (k a).length) :
    (as.flatMap g).length ≤ (as.flatMap k).length := by
  induction as with
  | nil => exact Nat.le_refl _
  | cons a as ih =>
    rw [List.flatMap_cons, List.flatMap_cons, List.length_append, List.length_append]
    exact Nat.add_le_add (h a List.mem_cons_self) (ih fun b hb ↦ h b (List.mem_cons_of_mem _ hb))

namespace Expr

theorem flatMap_nodes_eq {α : Type} (g : Expr → List α) (e : Expr) :
    e.nodes.flatMap g = g e ++ e.children.flatMap fun c ↦ c.nodes.flatMap g := by
  rw [nodes_eq, List.flatMap_cons, List.flatMap_assoc]

/-- Every node but the first is a child. -/
theorem length_children_nodes (e : Expr) : (e.nodes.flatMap children).length < e.nodes.length := by
  induction e using induction_children with
  | step e ih =>
    have hchildren := sum_map_add_le (k := fun _ ↦ 1) ih
    have hcount : (e.children.map fun _ ↦ 1).sum = e.children.length := by
      rw [List.map_const', List.sum_replicate_nat, Nat.mul_one]
    rw [flatMap_nodes_eq, nodes_eq, List.length_append, List.length_cons, List.length_flatMap,
      List.length_flatMap]
    omega

end Expr

namespace SyntaxTree

variable (t : SyntaxTree)

theorem length_bodyKeys_le (member : String) (s : Stmt) :
    (t.bodyKeys member s).length ≤ s.nodes.length + s.exprNodes.length := by
  have hstmts : (s.nodes.flatMap (Stmt.arrayKeys member)).length ≤ s.nodes.length := by
    have hle := length_flatMap_le (k := fun u ↦ [u]) fun u (_ : u ∈ s.nodes) ↦
      u.length_arrayKeys_le member
    rwa [List.flatMap_singleton'] at hle
  have hexprs : (s.exprNodes.flatMap (Expr.arrayKeys t)).length ≤ s.exprNodes.length := by
    unfold Stmt.exprNodes
    rw [List.flatMap_assoc]
    refine length_flatMap_le fun u _ ↦ ?_
    rw [List.flatMap_assoc]
    exact length_flatMap_le fun e _ ↦ Nat.le_trans
      (length_flatMap_le fun n _ ↦ n.length_arrayKeys_le t) e.length_children_nodes.le
  rw [bodyKeys, List.length_append]
  exact Nat.add_le_add hstmts hexprs

theorem length_typeKeys_le (d : TypeDecl) : (t.typeKeys d).length ≤ d.fields.length +
    ((d.methods.filterMap MethodDecl.body).flatMap Stmt.nodes).length +
      ((d.methods.filterMap MethodDecl.body).flatMap Stmt.exprNodes).length := by
  rw [typeKeys, List.length_append, List.length_map, Nat.add_assoc, List.filterMap_eq_flatMap_toList,
    List.flatMap_assoc, List.flatMap_assoc, List.length_flatMap, List.length_flatMap,
    List.length_flatMap, ← List.sum_map_add]
  refine Nat.add_le_add_left (List.sum_le_sum fun m _ ↦ ?_) _
  cases m.body with
  | none => exact Nat.le_refl _
  | some s => simpa using t.length_bodyKeys_le (d.memberFullName m) s

theorem length_arrayKeys_le : t.arrayKeys.length ≤ t.bodySize := by
  have htypes : t.arrayKeys.length ≤ (t.types.flatMap TypeDecl.fields).length +
      (t.bodies.flatMap Stmt.nodes).length + (t.bodies.flatMap Stmt.exprNodes).length := by
    rw [arrayKeys, bodies, List.flatMap_assoc, List.flatMap_assoc, List.length_flatMap,
      List.length_flatMap, List.length_flatMap, List.length_flatMap, ← List.sum_map_add,
      ← List.sum_map_add]
    exact List.sum_le_sum fun d _ ↦ t.length_typeKeys_le d
  unfold bodySize
  omega

end SyntaxTree

theorem flatMap_subset_flatMap {α β : Type} {g g' : α → List β} {as : List α}
    (h : ∀ a ∈ as, g a ⊆ g' a) : as.flatMap g ⊆ as.flatMap g' := by
  intro x hx
  obtain ⟨a, ha, hx⟩ := List.mem_flatMap.1 hx
  exact List.mem_flatMap.2 ⟨a, ha, h a ha hx⟩

namespace Expr

theorem arrayKeys_withChildren (t : SyntaxTree) (e : Expr) {es : List Expr}
    (h : es.length = e.children.length) : (e.withChildren es).arrayKeys t = e.arrayKeys t := by
  have hcallee : (e.withChildren es).callee? = e.callee? := by
    unfold withChildren
    split <;> rfl
  unfold arrayKeys
  rw [hcallee, children_withChildren h, h]

variable {t : SyntaxTree} {f : Expr → Option Expr}

theorem arrayKeys_simplify (hf : Reduces f) (e : Expr) :
    (e.simplify f).1.nodes.flatMap (arrayKeys t) ⊆ e.nodes.flatMap (arrayKeys t) := by
  induction e using induction_children with
  | step e ih =>
    have hlength : (e.children.map fun c ↦ (c.simplify f).1).length = e.children.length :=
      List.length_map _
    have hoperands : (e.withChildren (e.children.map fun c ↦ (c.simplify f).1)).nodes.flatMap
        (arrayKeys t) ⊆ e.nodes.flatMap (arrayKeys t) := by
      rw [flatMap_nodes_eq, flatMap_nodes_eq _ e, arrayKeys_withChildren t e hlength,
        children_withChildren hlength, List.flatMap_map]
      exact List.append_subset.2 ⟨List.subset_append_left _ _,
        List.subset_append_of_subset_right _ (flatMap_subset_flatMap ih)⟩
    rw [simplify_eq]
    unfold replace
    split
    next e' he' =>
      obtain ⟨-, ⟨id, l, rfl⟩ | hchild⟩ := hf _ _ he'
      · exact List.nil_subset _
      · rw [flatMap_nodes_eq _ (e.withChildren _)] at hoperands
        exact fun x hx ↦ hoperands (List.mem_append_right _ (List.mem_flatMap.2 ⟨e', hchild, hx⟩))
    next => exact hoperands

end Expr

namespace SyntaxTree

theorem bodyKeys_simplify {t : SyntaxTree} {f : Expr → Option Expr} (hf : Expr.Reduces f)
    (member : String) (s : Stmt) : t.bodyKeys member (s.simplify f).1 ⊆ t.bodyKeys member s := by
  unfold bodyKeys Stmt.exprNodes
  rw [Stmt.nodes_simplify, List.flatMap_map, List.flatMap_map]
  refine List.append_subset.2 ⟨List.subset_append_of_subset_left _ (flatMap_subset_flatMap fun u _ ↦ ?_),
    List.subset_append_of_subset_right _ ?_⟩
  · rw [Stmt.arrayKeys_simplify]
    exact List.Subset.refl _
  · rw [List.flatMap_assoc, List.flatMap_assoc]
    refine flatMap_subset_flatMap fun u _ ↦ ?_
    rw [Stmt.exprs_simplify, List.flatMap_map, List.flatMap_assoc, List.flatMap_assoc]
    exact flatMap_subset_flatMap fun e _ ↦ e.arrayKeys_simplify hf

theorem bodyKeys_fold (t : SyntaxTree) (member : String) (fields : Constants) (s : Stmt) :
    t.bodyKeys member (s.fold fields).1 ⊆ t.bodyKeys member s := by
  unfold Stmt.fold
  generalize s.exprNodes.length + 1 = fuel
  induction fuel generalizing s with
  | zero => exact List.Subset.refl _
  | succ fuel ih =>
    have hstep : t.bodyKeys member (s.simplify (Expr.foldStep fields s.constantLocals)).1 ⊆
        t.bodyKeys member s := bodyKeys_simplify (Expr.reduces_foldStep _ _) member s
    unfold Stmt.foldRounds
    dsimp only
    split
    · exact hstep
    · exact List.Subset.trans (ih _) hstep

theorem bodyKeys_congr {t t' : SyntaxTree} (h : t'.signatures = t.signatures) :
    t'.bodyKeys = t.bodyKeys := by
  have hcall : Expr.arrayKeys t' = Expr.arrayKeys t := by
    funext e
    unfold Expr.arrayKeys
    simp only [resolveCall_congr h, memberFullName_congr h, (method_congr h _).2]
  funext member body
  unfold bodyKeys
  rw [hcall]

theorem arrayKeys_mapBodies {t : SyntaxTree} {f : String → Stmt → Stmt × Nat}
    (hf : ∀ member s, t.bodyKeys member (f member s).1 ⊆ t.bodyKeys member s) :
    (t.mapBodies f).1.arrayKeys ⊆ t.arrayKeys := by
  unfold arrayKeys typeKeys
  rw [bodyKeys_congr (signatures_mapBodies f t)]
  unfold mapBodies
  dsimp only
  rw [mapCount_fst, List.flatMap_map]
  refine flatMap_subset_flatMap fun d _ ↦ ?_
  refine List.append_subset.2 ⟨List.subset_append_left _ _, List.subset_append_of_subset_right _ ?_⟩
  dsimp only
  rw [mapCount_fst, List.flatMap_map]
  refine flatMap_subset_flatMap fun m _ ↦ ?_
  cases hb : m.body with
  | none =>
    dsimp only
    rw [hb]
    exact List.Subset.refl _
  | some s =>
    have hname : ∀ methods body, ({ d with methods := methods } : TypeDecl).memberFullName
        { m with body := body } = d.memberFullName m := fun _ _ ↦ rfl
    dsimp only
    rw [hname, Option.toList_some, Option.toList_some, List.flatMap_singleton,
      List.flatMap_singleton]
    exact hf (d.memberFullName m) s

theorem arrayKeys_mapInitializers (f : Expr → Expr × Nat) (t : SyntaxTree) :
    (t.mapInitializers f).1.arrayKeys = t.arrayKeys := by
  unfold arrayKeys typeKeys
  rw [bodyKeys_congr (signatures_mapInitializers f t)]
  unfold mapInitializers
  dsimp only
  rw [mapCount_fst, List.flatMap_map]
  refine List.flatMap_congr fun d _ ↦ ?_
  dsimp only
  rw [mapCount_fst, List.map_map]
  refine congrArg (· ++ _) (List.map_congr_left fun field _ ↦ ?_)
  rw [Function.comp_apply]
  split <;> rfl

theorem arrayKeys_foldInitializers (fuel : Nat) (t : SyntaxTree) :
    (foldInitializers fuel t).1.arrayKeys = t.arrayKeys :=
  foldInitializers_induction (P := fun t' ↦ t'.arrayKeys = t.arrayKeys)
    (fun t' ht' ↦ (arrayKeys_mapInitializers _ t').trans ht') fuel rfl

theorem arrayKeys_foldConstants (t : SyntaxTree) : t.foldConstants.1.arrayKeys ⊆ t.arrayKeys := by
  have hfirst := arrayKeys_foldInitializers (t.initializerNodes.length + 1) t
  unfold foldConstants
  generalize foldInitializers (t.initializerNodes.length + 1) t = first at hfirst ⊢
  rw [← hfirst]
  exact arrayKeys_mapBodies (f := fun _ s ↦ s.fold first.1.constantFields) fun member s ↦
    bodyKeys_fold first.1 member _ s

theorem arrayKeys_foldArrayLengths (t : SyntaxTree) (table : ArrayTable) :
    (t.foldArrayLengths table).1.arrayKeys ⊆ t.arrayKeys :=
  arrayKeys_mapBodies fun member s ↦ bodyKeys_simplify (reduces_foldLengthStep _) member s

end SyntaxTree

end Fabric
