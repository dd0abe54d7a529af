import Fabric.Packed.Tree
import Fabric.Proofs.Packed.Basic
import Fabric.Proofs.Syntax.Nodes

namespace Fabric

open Packed

theorem Visibility.identifies (v : Visibility) : Identifies (fun v ↦ packNat v.position) v :=
  identifies_position [.pub, .internal, .prot, .priv] (fun v ↦ by cases v <;> rfl) (by decide) v

theorem TypeKind.identifies (k : TypeKind) : Identifies (fun k ↦ packNat k.position) k :=
  identifies_position [.classType, .structType, .interfaceType] (fun k ↦ by cases k <;> rfl)
    (by decide) k

theorem UnaryOp.identifies (op : UnaryOp) : Identifies (fun op ↦ packNat op.position) op :=
  identifies_position [.neg, .not, .logicNot] (fun op ↦ by cases op <;> rfl) (by decide) op

theorem BinaryOp.identifies (op : BinaryOp) : Identifies (fun op ↦ packNat op.position) op :=
  identifies_position
    [.add, .sub, .mul, .div, .rem, .bitAnd, .bitOr, .bitXor, .shl, .shr, .eq, .ne, .lt, .le, .gt,
      .ge, .logicAnd, .logicOr]
    (fun op ↦ by cases op <;> rfl) (by decide) op

theorem TypeRef.identifies (t : TypeRef) : Identifies pack t := by
  induction t with
  | void =>
    intro u r s h
    cases u with
    | void => exact ⟨rfl, h.of_append rfl⟩
    -- Another variant has another position.
    | _ => exact absurd (h.variant (by decide) (by decide)).1 (by decide)
  | bool =>
    intro u r s h
    cases u with
    | bool => exact ⟨rfl, h.of_append rfl⟩
    | _ => exact absurd (h.variant (by decide) (by decide)).1 (by decide)
  | int width signed =>
    intro u r s h
    cases u with
    | int width' signed' =>
      have h := (h.variant (by decide) (by decide)).2
      rw [List.append_assoc, List.append_assoc] at h
      obtain ⟨hwidth, h⟩ := identifies_uint16 width h
      obtain ⟨hsigned, h⟩ := identifies_bool signed h
      exact ⟨by rw [hwidth, hsigned], h⟩
    | _ => exact absurd (h.variant (by decide) (by decide)).1 (by decide)
  | array element ih =>
    intro u r s h
    cases u with
    | array element' =>
      obtain ⟨helement, h⟩ := ih (h.variant (by decide) (by decide)).2
      exact ⟨by rw [helement], h⟩
    | _ => exact absurd (h.variant (by decide) (by decide)).1 (by decide)
  | named name =>
    intro u r s h
    cases u with
    | named name' =>
      obtain ⟨hname, h⟩ := identifies_text name (h.variant (by decide) (by decide)).2
      exact ⟨by rw [hname], h⟩
    | _ => exact absurd (h.variant (by decide) (by decide)).1 (by decide)

theorem TypeRef.pack_ne_nil (t : TypeRef) : t.pack ≠ [] := by
  cases t <;> simp [pack]

theorem Literal.identifies (l : Literal) : Identifies pack l := by
  intro m r s h
  cases l with
  | bool value =>
    cases m with
    | bool value' =>
      obtain ⟨hvalue, h⟩ := identifies_bool value (h.variant (by decide) (by decide)).2
      exact ⟨by rw [hvalue], h⟩
    | int => exact absurd (h.variant (by decide) (by decide)).1 (by decide)
  | int value width signed =>
    cases m with
    | bool => exact absurd (h.variant (by decide) (by decide)).1 (by decide)
    | int value' width' signed' =>
      have h := (h.variant (by decide) (by decide)).2
      simp only [List.append_assoc] at h
      obtain ⟨hvalue, h⟩ := identifies_int64 value h
      obtain ⟨hwidth, h⟩ := identifies_uint16 width h
      obtain ⟨hsigned, h⟩ := identifies_bool signed h
      exact ⟨by rw [hvalue, hwidth, hsigned], h⟩

theorem MemberRef.identifies (m : MemberRef) : Identifies pack m := by
  intro n r s h
  cases m
  cases n
  simp only [pack, List.append_assoc] at h
  obtain ⟨htype, h⟩ := identifies_text _ h
  obtain ⟨hname, h⟩ := identifies_text _ h
  obtain ⟨hparameters, h⟩ := identifies_list TypeRef.pack_ne_nil (fun t _ ↦ t.identifies) h
  exact ⟨by rw [htype, hname, hparameters], h⟩

theorem FieldRef.identifies (f : FieldRef) : Identifies pack f := by
  intro g r s h
  cases f
  cases g
  simp only [pack, List.append_assoc] at h
  obtain ⟨htype, h⟩ := identifies_text _ h
  obtain ⟨hname, h⟩ := identifies_text _ h
  exact ⟨by rw [htype, hname], h⟩

/-- A numbered node, which is told apart by its number, its variant and its content. -/
theorem Packed.Same.node {id id' : NodeId} {i j : Nat} {c d r s : List UInt8} (hi : i < 251)
    (hj : j < 251)
    (h : Same (packUInt32 id ++ packVariant i c ++ r) (packUInt32 id' ++ packVariant j d ++ s)) :
    id = id' ∧ i = j ∧ Same (c ++ r) (d ++ s) := by
  rw [List.append_assoc, List.append_assoc] at h
  obtain ⟨hid, h⟩ := identifies_uint32 id h
  exact ⟨hid, h.variant hi hj⟩

namespace Expr

theorem packAll_eq_flatMap (es : List Expr) : packAll es = es.flatMap pack := by
  induction es with
  | nil => rfl
  | cons e es ih => rw [packAll, ih, List.flatMap_cons]

theorem pack_ne_nil (e : Expr) : e.pack ≠ [] := by
  cases e <;> simp [pack]

theorem identifies (e : Expr) : Identifies pack e := by
  -- The parts are told apart one after another, each by what follows it.
  induction e using Expr.induction with
  | literal id value =>
    intro f r s h
    cases f with
    | literal =>
      obtain ⟨hid, -, h⟩ := h.node (by decide) (by decide)
      obtain ⟨hvalue, h⟩ := value.identifies h
      exact ⟨by rw [hid, hvalue], h⟩
    | _ => exact absurd (h.node (by decide) (by decide)).2.1 (by decide)
  | getLocal id name =>
    intro f r s h
    cases f with
    | getLocal =>
      obtain ⟨hid, -, h⟩ := h.node (by decide) (by decide)
      obtain ⟨hname, h⟩ := identifies_text name h
      exact ⟨by rw [hid, hname], h⟩
    | _ => exact absurd (h.node (by decide) (by decide)).2.1 (by decide)
  | getParameter id name =>
    intro f r s h
    cases f with
    | getParameter =>
      obtain ⟨hid, -, h⟩ := h.node (by decide) (by decide)
      obtain ⟨hname, h⟩ := identifies_text name h
      exact ⟨by rw [hid, hname], h⟩
    | _ => exact absurd (h.node (by decide) (by decide)).2.1 (by decide)
  | getField id field =>
    intro f r s h
    cases f with
    | getField =>
      obtain ⟨hid, -, h⟩ := h.node (by decide) (by decide)
      obtain ⟨hfield, h⟩ := field.identifies h
      exact ⟨by rw [hid, hfield], h⟩
    | _ => exact absurd (h.node (by decide) (by decide)).2.1 (by decide)
  | unary id op operand ih =>
    intro f r s h
    cases f with
    | unary =>
      obtain ⟨hid, -, h⟩ := h.node (by decide) (by decide)
      rw [List.append_assoc, List.append_assoc] at h
      obtain ⟨hop, h⟩ := op.identifies h
      obtain ⟨hoperand, h⟩ := ih h
      exact ⟨by rw [hid, hop, hoperand], h⟩
    | _ => exact absurd (h.node (by decide) (by decide)).2.1 (by decide)
  | binary id op lhs rhs ihl ihr =>
    intro f r s h
    cases f with
    | binary =>
      obtain ⟨hid, -, h⟩ := h.node (by decide) (by decide)
      simp only [List.append_assoc] at h
      obtain ⟨hop, h⟩ := op.identifies h
      obtain ⟨hlhs, h⟩ := ihl h
      obtain ⟨hrhs, h⟩ := ihr h
      exact ⟨by rw [hid, hop, hlhs, hrhs], h⟩
    | _ => exact absurd (h.node (by decide) (by decide)).2.1 (by decide)
  | call id target args ih =>
    intro f r s h
    cases f with
    | call =>
      obtain ⟨hid, -, h⟩ := h.node (by decide) (by decide)
      simp only [packAll_eq_flatMap, List.append_assoc] at h
      obtain ⟨htarget, h⟩ := target.identifies h
      rw [← List.append_assoc, ← List.append_assoc (packNat _)] at h
      obtain ⟨hargs, h⟩ := identifies_list pack_ne_nil ih h
      exact ⟨by rw [hid, htarget, hargs], h⟩
    | _ => exact absurd (h.node (by decide) (by decide)).2.1 (by decide)
  | newArray id element length ih =>
    intro f r s h
    cases f with
    | newArray =>
      obtain ⟨hid, -, h⟩ := h.node (by decide) (by decide)
      rw [List.append_assoc, List.append_assoc] at h
      obtain ⟨helement, h⟩ := element.identifies h
      obtain ⟨hlength, h⟩ := ih h
      exact ⟨by rw [hid, helement, hlength], h⟩
    | _ => exact absurd (h.node (by decide) (by decide)).2.1 (by decide)
  | arrayElement id array index iha ihi =>
    intro f r s h
    cases f with
    | arrayElement =>
      obtain ⟨hid, -, h⟩ := h.node (by decide) (by decide)
      rw [List.append_assoc, List.append_assoc] at h
      obtain ⟨harray, h⟩ := iha h
      obtain ⟨hindex, h⟩ := ihi h
      exact ⟨by rw [hid, harray, hindex], h⟩
    | _ => exact absurd (h.node (by decide) (by decide)).2.1 (by decide)
  | arrayLength id array ih =>
    intro f r s h
    cases f with
    | arrayLength =>
      obtain ⟨hid, -, h⟩ := h.node (by decide) (by decide)
      obtain ⟨harray, h⟩ := ih h
      exact ⟨by rw [hid, harray], h⟩
    | _ => exact absurd (h.node (by decide) (by decide)).2.1 (by decide)
  | conditional id condition ifTrue ifFalse ihc iht ihf =>
    intro f r s h
    cases f with
    | conditional =>
      obtain ⟨hid, -, h⟩ := h.node (by decide) (by decide)
      simp only [List.append_assoc] at h
      obtain ⟨hcondition, h⟩ := ihc h
      obtain ⟨htrue, h⟩ := iht h
      obtain ⟨hfalse, h⟩ := ihf h
      exact ⟨by rw [hid, hcondition, htrue, hfalse], h⟩
    | _ => exact absurd (h.node (by decide) (by decide)).2.1 (by decide)
  | cast id type operand ih =>
    intro f r s h
    cases f with
    | cast =>
      obtain ⟨hid, -, h⟩ := h.node (by decide) (by decide)
      rw [List.append_assoc, List.append_assoc] at h
      obtain ⟨htype, h⟩ := type.identifies h
      obtain ⟨hoperand, h⟩ := ih h
      exact ⟨by rw [hid, htype, hoperand], h⟩
    | _ => exact absurd (h.node (by decide) (by decide)).2.1 (by decide)

end Expr

theorem AssignTarget.identifies (t : AssignTarget) : Identifies pack t := by
  intro u r s h
  cases t with
  | toLocal name =>
    cases u with
    | toLocal =>
      obtain ⟨hname, h⟩ := identifies_text name (h.variant (by decide) (by decide)).2
      exact ⟨by rw [hname], h⟩
    | _ => exact absurd (h.variant (by decide) (by decide)).1 (by decide)
  | toParameter name =>
    cases u with
    | toParameter =>
      obtain ⟨hname, h⟩ := identifies_text name (h.variant (by decide) (by decide)).2
      exact ⟨by rw [hname], h⟩
    | _ => exact absurd (h.variant (by decide) (by decide)).1 (by decide)
  | toField field =>
    cases u with
    | toField =>
      obtain ⟨hfield, h⟩ := field.identifies (h.variant (by decide) (by decide)).2
      exact ⟨by rw [hfield], h⟩
    | _ => exact absurd (h.variant (by decide) (by decide)).1 (by decide)

namespace Stmt

theorem packOptional_eq (o : Option Stmt) : packOptional o = packOption pack o := by
  cases o with
  | none => rfl
  | some s => rw [packOptional, packOption]

theorem packAll_eq_flatMap (ss : List Stmt) : packAll ss = ss.flatMap pack := by
  induction ss with
  | nil => rfl
  | cons s ss ih => rw [packAll, ih, List.flatMap_cons]

theorem pack_ne_nil (s : Stmt) : s.pack ≠ [] := by
  cases s <;> simp [pack]

theorem identifies (s : Stmt) : Identifies pack s := by
  have hexpr (o : Option Expr) : Identifies (packOption Expr.pack) o :=
    identifies_option fun e _ ↦ e.identifies
  induction s using Stmt.induction with
  | declare id name type init =>
    intro t r s h
    cases t with
    | declare =>
      obtain ⟨hid, -, h⟩ := h.node (by decide) (by decide)
      simp only [List.append_assoc] at h
      obtain ⟨hname, h⟩ := identifies_text name h
      obtain ⟨htype, h⟩ := type.identifies h
      obtain ⟨hinit, h⟩ := hexpr init h
      exact ⟨by rw [hid, hname, htype, hinit], h⟩
    | _ => exact absurd (h.node (by decide) (by decide)).2.1 (by decide)
  | assign id target value =>
    intro t r s h
    cases t with
    | assign =>
      obtain ⟨hid, -, h⟩ := h.node (by decide) (by decide)
      rw [List.append_assoc, List.append_assoc] at h
      obtain ⟨htarget, h⟩ := target.identifies h
      obtain ⟨hvalue, h⟩ := value.identifies h
      exact ⟨by rw [hid, htarget, hvalue], h⟩
    | _ => exact absurd (h.node (by decide) (by decide)).2.1 (by decide)
  | store id array index value =>
    intro t r s h
    cases t with
    | store =>
      obtain ⟨hid, -, h⟩ := h.node (by decide) (by decide)
      simp only [List.append_assoc] at h
      obtain ⟨harray, h⟩ := array.identifies h
      obtain ⟨hindex, h⟩ := index.identifies h
      obtain ⟨hvalue, h⟩ := value.identifies h
      exact ⟨by rw [hid, harray, hindex, hvalue], h⟩
    | _ => exact absurd (h.node (by decide) (by decide)).2.1 (by decide)
  | branch id condition thenBranch elseBranch ihthen ihelse =>
    intro t r s h
    cases t with
    | branch =>
      obtain ⟨hid, -, h⟩ := h.node (by decide) (by decide)
      simp only [packOptional_eq, List.append_assoc] at h
      obtain ⟨hcondition, h⟩ := condition.identifies h
      obtain ⟨hthen, h⟩ := ihthen h
      obtain ⟨helse, h⟩ := identifies_option ihelse h
      exact ⟨by rw [hid, hcondition, hthen, helse], h⟩
    | _ => exact absurd (h.node (by decide) (by decide)).2.1 (by decide)
  | whileLoop id condition body ih =>
    intro t r s h
    cases t with
    | whileLoop =>
      obtain ⟨hid, -, h⟩ := h.node (by decide) (by decide)
      rw [List.append_assoc, List.append_assoc] at h
      obtain ⟨hcondition, h⟩ := condition.identifies h
      obtain ⟨hbody, h⟩ := ih h
      exact ⟨by rw [hid, hcondition, hbody], h⟩
    | _ => exact absurd (h.node (by decide) (by decide)).2.1 (by decide)
  | forLoop id init condition step body ihinit ihstep ihbody =>
    intro t r s h
    cases t with
    | forLoop =>
      obtain ⟨hid, -, h⟩ := h.node (by decide) (by decide)
      simp only [packOptional_eq, List.append_assoc] at h
      obtain ⟨hinit, h⟩ := identifies_option ihinit h
      obtain ⟨hcondition, h⟩ := hexpr condition h
      obtain ⟨hstep, h⟩ := identifies_option ihstep h
      obtain ⟨hbody, h⟩ := ihbody h
      exact ⟨by rw [hid, hinit, hcondition, hstep, hbody], h⟩
    | _ => exact absurd (h.node (by decide) (by decide)).2.1 (by decide)
  | ret id value =>
    intro t r s h
    cases t with
    | ret =>
      obtain ⟨hid, -, h⟩ := h.node (by decide) (by decide)
      obtain ⟨hvalue, h⟩ := hexpr value h
      exact ⟨by rw [hid, hvalue], h⟩
    | _ => exact absurd (h.node (by decide) (by decide)).2.1 (by decide)
  | eval id expr =>
    intro t r s h
    cases t with
    | eval =>
      obtain ⟨hid, -, h⟩ := h.node (by decide) (by decide)
      obtain ⟨hvalue, h⟩ := expr.identifies h
      exact ⟨by rw [hid, hvalue], h⟩
    | _ => exact absurd (h.node (by decide) (by decide)).2.1 (by decide)
  | block id stmts ih =>
    intro t r s h
    cases t with
    | block =>
      obtain ⟨hid, -, h⟩ := h.node (by decide) (by decide)
      rw [packAll_eq_flatMap, packAll_eq_flatMap] at h
      obtain ⟨hstmts, h⟩ := identifies_list pack_ne_nil ih h
      exact ⟨by rw [hid, hstmts], h⟩
    | _ => exact absurd (h.node (by decide) (by decide)).2.1 (by decide)
  | breakLoop id =>
    intro t r s h
    cases t with
    | breakLoop =>
      obtain ⟨hid, -, h⟩ := h.node (by decide) (by decide)
      exact ⟨by rw [hid], h⟩
    | _ => exact absurd (h.node (by decide) (by decide)).2.1 (by decide)
  | continueLoop id =>
    intro t r s h
    cases t with
    | continueLoop =>
      obtain ⟨hid, -, h⟩ := h.node (by decide) (by decide)
      exact ⟨by rw [hid], h⟩
    | _ => exact absurd (h.node (by decide) (by decide)).2.1 (by decide)
  | parallel id count index call results =>
    intro t r s h
    cases t with
    | parallel =>
      obtain ⟨hid, -, h⟩ := h.node (by decide) (by decide)
      simp only [List.append_assoc] at h
      obtain ⟨hcount, h⟩ := count.identifies h
      obtain ⟨hindex, h⟩ := identifies_text index h
      obtain ⟨hcall, h⟩ := call.identifies h
      obtain ⟨hresults, h⟩ := identifies_option (fun s _ ↦ identifies_text s) h
      exact ⟨by rw [hid, hcount, hindex, hcall, hresults], h⟩
    | _ => exact absurd (h.node (by decide) (by decide)).2.1 (by decide)

end Stmt

theorem Modifiers.identifies (m : Modifiers) : Identifies pack m := by
  intro n r s h
  cases m
  cases n
  simp only [pack, List.append_assoc] at h
  obtain ⟨hvisibility, h⟩ := Visibility.identifies _ h
  obtain ⟨hvirtual, h⟩ := identifies_bool _ h
  obtain ⟨hstatic, h⟩ := identifies_bool _ h
  obtain ⟨hasync, h⟩ := identifies_bool _ h
  obtain ⟨habstract, h⟩ := identifies_bool _ h
  obtain ⟨hhint, h⟩ := identifies_bool _ h
  exact ⟨by rw [hvisibility, hvirtual, hstatic, hasync, habstract, hhint], h⟩

theorem Parameter.identifies (p : Parameter) : Identifies pack p := by
  intro q r s h
  cases p
  cases q
  simp only [pack, List.append_assoc] at h
  obtain ⟨hname, h⟩ := identifies_text _ h
  obtain ⟨htype, h⟩ := TypeRef.identifies _ h
  exact ⟨by rw [hname, htype], h⟩

theorem Parameter.pack_ne_nil (p : Parameter) : p.pack ≠ [] := by
  simp [pack]

theorem MethodDecl.identifies (m : MethodDecl) : Identifies pack m := by
  intro n r s h
  cases m
  cases n
  simp only [pack, Stmt.packOptional_eq, List.append_assoc] at h
  obtain ⟨hid, h⟩ := identifies_uint32 _ h
  obtain ⟨hname, h⟩ := identifies_text _ h
  obtain ⟨hinterface, h⟩ := identifies_option (fun s _ ↦ identifies_text s) h
  obtain ⟨hmodifiers, h⟩ := Modifiers.identifies _ h
  obtain ⟨hparameters, h⟩ := identifies_list Parameter.pack_ne_nil (fun p _ ↦ p.identifies) h
  obtain ⟨hreturn, h⟩ := TypeRef.identifies _ h
  obtain ⟨hbody, h⟩ := identifies_option (fun s _ ↦ s.identifies) h
  exact ⟨by rw [hid, hname, hinterface, hmodifiers, hparameters, hreturn, hbody], h⟩

theorem MethodDecl.pack_ne_nil (m : MethodDecl) : m.pack ≠ [] := by
  simp [pack]

theorem FieldDecl.identifies (f : FieldDecl) : Identifies pack f := by
  intro g r s h
  cases f
  cases g
  simp only [pack, List.append_assoc] at h
  obtain ⟨hid, h⟩ := identifies_uint32 _ h
  obtain ⟨hname, h⟩ := identifies_text _ h
  obtain ⟨htype, h⟩ := TypeRef.identifies _ h
  obtain ⟨hvisibility, h⟩ := Visibility.identifies _ h
  obtain ⟨hstatic, h⟩ := identifies_bool _ h
  obtain ⟨hreadonly, h⟩ := identifies_bool _ h
  obtain ⟨hinitializer, h⟩ := identifies_option (fun e _ ↦ e.identifies) h
  exact ⟨by rw [hid, hname, htype, hvisibility, hstatic, hreadonly, hinitializer], h⟩

theorem FieldDecl.pack_ne_nil (f : FieldDecl) : f.pack ≠ [] := by
  simp [pack]

theorem TypeDecl.identifies (d : TypeDecl) : Identifies pack d := by
  intro e r s h
  cases d
  cases e
  simp only [pack, List.append_assoc] at h
  obtain ⟨hid, h⟩ := identifies_uint32 _ h
  obtain ⟨hname, h⟩ := identifies_text _ h
  obtain ⟨hkind, h⟩ := TypeKind.identifies _ h
  obtain ⟨hvisibility, h⟩ := Visibility.identifies _ h
  obtain ⟨hinterfaces, h⟩ := identifies_list packText_ne_nil (fun s _ ↦ identifies_text s) h
  obtain ⟨hfields, h⟩ := identifies_list FieldDecl.pack_ne_nil (fun f _ ↦ f.identifies) h
  obtain ⟨hmethods, h⟩ := identifies_list MethodDecl.pack_ne_nil (fun m _ ↦ m.identifies) h
  exact ⟨by rw [hid, hname, hkind, hvisibility, hinterfaces, hfields, hmethods], h⟩

theorem TypeDecl.pack_ne_nil (d : TypeDecl) : d.pack ≠ [] := by
  simp [pack]

namespace SyntaxTree

theorem identifies (t : SyntaxTree) : Identifies pack t := by
  intro u r s h
  cases t
  cases u
  obtain ⟨htypes, h⟩ := identifies_list TypeDecl.pack_ne_nil (fun d _ ↦ d.identifies) h
  exact ⟨congrArg mk htypes, h⟩

/-- A tree is determined by its bytes. The lengths of its parts are stored as numbers of 64 bits, so
there have to be fewer bytes than these can count. -/
theorem pack_injective {t t' : SyntaxTree} (hlength : t.pack.length < 2 ^ 64)
    (h : t.pack = t'.pack) : t = t' := by
  have hsame : Same (t.pack ++ []) (t'.pack ++ []) := by
    rw [List.append_nil, List.append_nil]
    exact ⟨h, hlength⟩
  exact (t.identifies hsame).1

end SyntaxTree

end Fabric
