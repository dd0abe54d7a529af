import Fabric.Proofs.Json.Printed
import Fabric.Proofs.Syntax.Nodes
import Fabric.Syntax.Interchange
import Mathlib.Data.List.Nodup

namespace Fabric

open Json

namespace Json

def Restored {α : Type} (encode : α → Json) (decode : Nat → Json → Option α) (a : α) : Prop :=
  ∀ depth, (encode a).depth ≤ depth → decode depth (encode a) = some a

variable {α : Type} {encode : α → Json} {decode : Nat → Json → Option α}

theorem depthItems_le {items : List Json} {n : Nat} :
    depthItems items ≤ n ↔ ∀ j ∈ items, j.depth ≤ n := by
  induction items with
  | nil => simp [depthItems]
  | cons j js ih => rw [depthItems, Nat.max_le, ih, List.forall_mem_cons]

theorem depthMembers_le {members : List (String × Json)} {n : Nat} :
    depthMembers members ≤ n ↔ ∀ m ∈ members, m.2.depth ≤ n := by
  induction members with
  | nil => simp [depthMembers]
  | cons m ms ih => rw [depthMembers, Nat.max_le, ih, List.forall_mem_cons]

theorem exists_of_depth_arr_le {items : List Json} {n : Nat} (h : (arr items).depth ≤ n) :
    ∃ k, n = k + 1 ∧ ∀ j ∈ items, j.depth ≤ k := by
  rw [Json.depth] at h
  obtain ⟨k, rfl⟩ := Nat.exists_eq_add_of_le' (Nat.one_le_of_lt h)
  exact ⟨k, rfl, depthItems_le.1 (Nat.le_of_succ_le_succ h)⟩

theorem exists_of_depth_obj_le {members : List (String × Json)} {n : Nat}
    (h : (obj members).depth ≤ n) : ∃ k, n = k + 1 ∧ ∀ m ∈ members, m.2.depth ≤ k := by
  rw [Json.depth] at h
  obtain ⟨k, rfl⟩ := Nat.exists_eq_add_of_le' (Nat.one_le_of_lt h)
  exact ⟨k, rfl, depthMembers_le.1 (Nat.le_of_succ_le_succ h)⟩

theorem mapM_map_eq_some {as : List α} {decode : Json → Option α}
    (h : ∀ a ∈ as, decode (encode a) = some a) : (as.map encode).mapM decode = some as := by
  induction as with
  | nil => rfl
  | cons a as ih =>
    obtain ⟨ha, has⟩ := List.forall_mem_cons.1 h
    rw [List.map_cons, List.mapM_cons, ha, ih has]
    rfl

theorem restored_list {as : List α} (h : ∀ a ∈ as, Restored encode decode a) :
    Restored (ofList encode) (decodeList decode) as := by
  intro depth hdepth
  obtain ⟨depth, rfl, hitems⟩ := exists_of_depth_arr_le hdepth
  exact mapM_map_eq_some fun a ha ↦ h a ha depth (hitems _ (List.mem_map_of_mem ha))

theorem restored_option {o : Option α} (h : ∀ a ∈ o, Restored encode decode a)
    (hnull : ∀ a, encode a ≠ .null) :
    Restored (ofOption encode) (fun depth ↦ optional (decode depth)) o := by
  intro depth hdepth
  cases o with
  | none => rfl
  | some a =>
    have ha := h a rfl depth hdepth
    rw [ofOption]
    dsimp only
    unfold optional
    split
    next hj => exact absurd hj (hnull a)
    next => rw [ha, Option.map_some]

theorem restored_str (s : String) : Restored .str (fun _ ↦ asText) s := fun _ _ ↦ rfl

theorem restored_text (o : Option String) :
    Restored (ofOption .str) (fun _ ↦ optional asText) o :=
  restored_option (fun s _ ↦ restored_str s) nofun

theorem decodeUnit_str (names : List (String × α)) (depth : Nat) (tag : String) :
    decodeUnit names depth (.str tag) = names.lookup tag := by
  cases depth <;> rfl

theorem asNat_natCast {n bound : Nat} (h : n < bound) : asNat bound (.int n) = some n :=
  if_pos ⟨Int.natCast_nonneg n, Int.ofNat_lt.2 h⟩

theorem asUInt16_ofUInt16 (n : UInt16) : asUInt16 (ofUInt16 n) = some n := by
  rw [asUInt16, ofUInt16, asNat_natCast (show n.toNat < twoPow 16 from n.toNat_lt), Option.map_some,
    UInt16.ofNat_toNat]

theorem asUInt32_ofUInt32 (n : UInt32) : asUInt32 (ofUInt32 n) = some n := by
  rw [asUInt32, ofUInt32, asNat_natCast (show n.toNat < twoPow 32 from n.toNat_lt), Option.map_some,
    UInt32.ofNat_toNat]

theorem asInt64_ofInt64 (n : Int64) : asInt64 (ofInt64 n) = some n := by
  have hle : -(twoPow 63 : Int) ≤ n.toInt := n.le_toInt
  have hlt : n.toInt < (twoPow 63 : Int) := n.toInt_lt
  unfold asInt64 ofInt64
  dsimp only
  rw [if_pos ⟨hle, hlt⟩, Int64.ofInt_toInt]

end Json

theorem Visibility.lookup_name (v : Visibility) : names.lookup v.name = some v := by
  cases v <;> rfl

theorem TypeKind.lookup_name (k : TypeKind) : names.lookup k.name = some k := by
  cases k <;> rfl

theorem UnaryOp.lookup_name (op : UnaryOp) : names.lookup op.name = some op := by
  cases op <;> rfl

theorem BinaryOp.lookup_name (op : BinaryOp) : names.lookup op.name = some op := by
  cases op <;> rfl

namespace Json

/-- An object whose keys are different is a record of any fields. -/
@[simp]
theorem record_obj (names : List String) {members : List (String × Json)}
    (h : (members.map Prod.fst).Nodup) : record names (.obj members) = some ⟨members, false⟩ := by
  have hone (name : String) : repeats members name = false := by
    have hcount := List.nodup_iff_count_le_one.1 h name
    rw [List.count_eq_length_filter, List.filter_map, List.length_map] at hcount
    rw [repeats, decide_eq_false_iff_not, Nat.not_lt]
    refine Nat.le_trans (Nat.le_of_eq (congrArg List.length ?_)) hcount
    exact List.filter_congr fun _ _ ↦ rfl
  have hnames : ¬ names.any (repeats members) := by
    rw [List.any_eq_true]
    rintro ⟨name, -, hname⟩
    rw [hone] at hname
    cases hname
  exact if_neg hnames

namespace Record

variable {β : Type} {name key : String} (j : Json) (rest : List (String × Json)) (positional : Bool)
  (decode : Json → Option β) (value : β)

@[simp]
theorem get?_head : get? ⟨(name, j) :: rest, positional⟩ name = some j := by
  simp [get?]

@[simp]
theorem get?_tail (h : name ≠ key) :
    get? ⟨(key, j) :: rest, positional⟩ name = get? ⟨rest, positional⟩ name := by
  simp [get?, List.lookup_cons, beq_false_of_ne h]

@[simp]
theorem required_head : required ⟨(name, j) :: rest, positional⟩ name decode = decode j := by
  simp [required]

@[simp]
theorem required_tail (h : name ≠ key) : required ⟨(key, j) :: rest, positional⟩ name decode =
    required ⟨rest, positional⟩ name decode := by
  simp [required, h]

@[simp]
theorem withDefault_head :
    withDefault ⟨(name, j) :: rest, positional⟩ name value decode = decode j := by
  simp [withDefault]

@[simp]
theorem withDefault_tail (h : name ≠ key) :
    withDefault ⟨(key, j) :: rest, positional⟩ name value decode =
      withDefault ⟨rest, positional⟩ name value decode := by
  simp [withDefault, h]

@[simp]
theorem nullable_head :
    nullable ⟨(name, j) :: rest, positional⟩ name decode = optional decode j := by
  simp [nullable]

@[simp]
theorem nullable_tail (h : name ≠ key) : nullable ⟨(key, j) :: rest, positional⟩ name decode =
    nullable ⟨rest, positional⟩ name decode := by
  simp [nullable, h]

end Record

variable {β : Type} {f : α → Option β} {o : Option β}

theorem bind_eq_of_some {a : α} {value : Option α} (h : value = some a) (hf : f a = o) :
    (value >>= f) = o := by
  rw [h]
  exact hf

theorem bind_variant_eq {tag : String} {payload : Json} {f : String × Json → Option β}
    (hf : f (tag, payload) = o) : (asVariant (variant tag payload) >>= f) = o := hf

theorem bind_record_eq {names : List String} {members : List (String × Json)}
    {f : Record → Option β} (h : (members.map Prod.fst).Nodup) (hf : f ⟨members, false⟩ = o) :
    (record names (.obj members) >>= f) = o :=
  bind_eq_of_some (record_obj names h) hf

end Json

theorem TypeRef.restored (t : TypeRef) : Restored toJson (TypeRef.decode .text) t := by
  intro depth h
  induction t generalizing depth with
  | void | bool => cases depth <;> rfl
  | int width signed =>
    obtain ⟨depth, rfl, hcontent⟩ := exists_of_depth_obj_le h
    obtain ⟨depth, rfl, -⟩ := exists_of_depth_obj_le (hcontent _ List.mem_cons_self)
    rw [toJson, variant, TypeRef.decode]
    simp -implicitDefEqProofs [content, asUInt16_ofUInt16, Json.asBool]
  | array element ih =>
    obtain ⟨depth, rfl, hcontent⟩ := exists_of_depth_obj_le h
    simp [toJson, variant, TypeRef.decode, ih depth (hcontent _ List.mem_cons_self)]
  | named name =>
    obtain ⟨depth, rfl, -⟩ := exists_of_depth_obj_le h
    rfl

theorem Literal.restored (l : Literal) : Restored toJson (Literal.decode .text) l := by
  intro depth h
  cases l with
  | bool value =>
    obtain ⟨depth, rfl, -⟩ := exists_of_depth_obj_le h
    rfl
  | int value width signed =>
    obtain ⟨depth, rfl, hcontent⟩ := exists_of_depth_obj_le h
    obtain ⟨depth, rfl, -⟩ := exists_of_depth_obj_le (hcontent _ List.mem_cons_self)
    simp [toJson, variant, Literal.decode, asVariant, content, asInt64_ofInt64,
      asUInt16_ofUInt16, Json.asBool]

theorem MemberRef.restored (m : MemberRef) : Restored toJson (MemberRef.decode .text) m := by
  intro depth h
  obtain ⟨depth, rfl, hfields⟩ := exists_of_depth_obj_le h
  simp only [List.forall_mem_cons] at hfields
  obtain ⟨-, -, htypes, -⟩ := hfields
  have htypes := restored_list (fun t (_ : t ∈ m.parameterTypes) ↦ t.restored) depth htypes
  simp [toJson, MemberRef.decode, asText, htypes]

theorem FieldRef.restored (f : FieldRef) : Restored toJson FieldRef.decode f := by
  intro depth h
  obtain ⟨depth, rfl, -⟩ := exists_of_depth_obj_le h
  rfl

theorem Json.exists_of_depth_node_le {id : NodeId} {tag : String} {payload : Json} {n : Nat}
    (h : (nodeJson id (variant tag payload)).depth ≤ n) : ∃ k, n = k + 2 ∧ payload.depth ≤ k := by
  obtain ⟨k, rfl, hkind⟩ := exists_of_depth_obj_le h
  have hvariant := hkind ("kind", variant tag payload) (by simp)
  obtain ⟨k, rfl, hpayload⟩ := exists_of_depth_obj_le hvariant
  exact ⟨k, rfl, hpayload _ List.mem_cons_self⟩

theorem Json.exists_of_depth_record_le {id : NodeId} {tag : String}
    {members : List (String × Json)} {n : Nat}
    (h : (nodeJson id (variant tag (.obj members))).depth ≤ n) :
    ∃ k, n = k + 3 ∧ ∀ m ∈ members, m.2.depth ≤ k := by
  obtain ⟨k, rfl, hpayload⟩ := exists_of_depth_node_le h
  obtain ⟨k, rfl, hmembers⟩ := exists_of_depth_obj_le hpayload
  exact ⟨k, rfl, hmembers⟩

theorem Expr.decode_nodeJson (depth : Nat) (id : NodeId) (kind : Json) :
    Expr.decode (depth + 1) (nodeJson id kind) = Expr.decodeKind depth id kind := by
  rw [nodeJson, Expr.decode]
  simp -implicitDefEqProofs [asUInt32_ofUInt32]

theorem Stmt.decode_nodeJson (depth : Nat) (id : NodeId) (tag : String) (payload : Json)
    (h : tag ≠ "Break" ∧ tag ≠ "Continue") :
    Stmt.decode (depth + 1) (nodeJson id (variant tag payload)) =
      Stmt.decodeKind depth id (variant tag payload) := by
  have hnone : decodeUnit [("Break", Stmt.breakLoop), ("Continue", Stmt.continueLoop)] depth
      (variant tag payload) = none := by
    cases depth with
    | zero => rfl
    | succ depth =>
      simp [decodeUnit, variant, asUnit, List.lookup_cons, beq_false_of_ne h.1,
        beq_false_of_ne h.2]
  rw [nodeJson, Stmt.decode]
  simp -implicitDefEqProofs [asUInt32_ofUInt32, hnone]

theorem Expr.listToJson_eq (es : List Expr) : listToJson es = es.map toJson := by
  induction es with
  | nil => rfl
  | cons e es ih => rw [listToJson, ih, List.map_cons]

theorem Expr.restored (e : Expr) : Restored toJson Expr.decode e := by
  intro depth h
  induction e using Expr.induction generalizing depth with
  | literal id value =>
    obtain ⟨depth, rfl, hcontent⟩ := exists_of_depth_node_le h
    rw [toJson, decode_nodeJson, decodeKind]
    exact bind_variant_eq (bind_eq_of_some (value.restored depth hcontent) rfl)
  | getLocal id name | getParameter id name =>
    obtain ⟨depth, rfl, -⟩ := exists_of_depth_node_le h
    rw [toJson, decode_nodeJson]
    rfl
  | getField id field =>
    obtain ⟨depth, rfl, hcontent⟩ := exists_of_depth_node_le h
    rw [toJson, decode_nodeJson, decodeKind]
    exact bind_variant_eq (bind_eq_of_some (field.restored depth hcontent) rfl)
  | unary id op operand ih =>
    obtain ⟨depth, rfl, hfields⟩ := exists_of_depth_record_le h
    simp only [List.forall_mem_cons] at hfields
    obtain ⟨-, hoperand, -⟩ := hfields
    rw [toJson, decode_nodeJson, decodeKind]
    refine bind_variant_eq (bind_record_eq (by simp) ?_)
    simp [decodeUnit_str, op.lookup_name, ih depth hoperand]
  | binary id op lhs rhs ihl ihr =>
    obtain ⟨depth, rfl, hfields⟩ := exists_of_depth_record_le h
    simp only [List.forall_mem_cons] at hfields
    obtain ⟨-, hlhs, hrhs, -⟩ := hfields
    rw [toJson, decode_nodeJson, decodeKind]
    refine bind_variant_eq (bind_record_eq (by simp) ?_)
    simp [decodeUnit_str, op.lookup_name, ihl depth hlhs, ihr depth hrhs]
  | call id target args ih =>
    rw [toJson, listToJson_eq] at h
    obtain ⟨depth, rfl, hfields⟩ := exists_of_depth_record_le h
    simp only [List.forall_mem_cons] at hfields
    obtain ⟨htarget, hargs, -⟩ := hfields
    obtain ⟨depth, rfl, hitems⟩ := exists_of_depth_arr_le hargs
    have hdecode : decodeArgs (depth + 1) (.arr (args.map toJson)) = some args :=
      mapM_map_eq_some fun a ha ↦ ih a ha depth (hitems _ (List.mem_map_of_mem ha))
    rw [toJson, decode_nodeJson, decodeKind, listToJson_eq]
    refine bind_variant_eq (bind_record_eq (by simp) ?_)
    simp [target.restored _ htarget, hdecode]
  | newArray id element length ih =>
    obtain ⟨depth, rfl, hfields⟩ := exists_of_depth_record_le h
    simp only [List.forall_mem_cons] at hfields
    obtain ⟨helement, hlength, -⟩ := hfields
    rw [toJson, decode_nodeJson, decodeKind]
    refine bind_variant_eq (bind_record_eq (by simp) ?_)
    simp [element.restored depth helement, ih depth hlength]
  | arrayElement id array index iha ihi =>
    obtain ⟨depth, rfl, hfields⟩ := exists_of_depth_record_le h
    simp only [List.forall_mem_cons] at hfields
    obtain ⟨harray, hindex, -⟩ := hfields
    rw [toJson, decode_nodeJson, decodeKind]
    refine bind_variant_eq (bind_record_eq (by simp) ?_)
    simp [iha depth harray, ihi depth hindex]
  | arrayLength id array ih =>
    obtain ⟨depth, rfl, hcontent⟩ := exists_of_depth_node_le h
    rw [toJson, decode_nodeJson, decodeKind]
    exact bind_variant_eq (bind_eq_of_some (ih depth hcontent) rfl)
  | conditional id condition ifTrue ifFalse ihc iht ihf =>
    obtain ⟨depth, rfl, hfields⟩ := exists_of_depth_record_le h
    simp only [List.forall_mem_cons] at hfields
    obtain ⟨hcondition, htrue, hfalse, -⟩ := hfields
    rw [toJson, decode_nodeJson, decodeKind]
    refine bind_variant_eq (bind_record_eq (by simp) ?_)
    simp [ihc depth hcondition, iht depth htrue, ihf depth hfalse]
  | cast id type operand ih =>
    obtain ⟨depth, rfl, hfields⟩ := exists_of_depth_record_le h
    simp only [List.forall_mem_cons] at hfields
    obtain ⟨htype, hoperand, -⟩ := hfields
    rw [toJson, decode_nodeJson, decodeKind]
    refine bind_variant_eq (bind_record_eq (by simp) ?_)
    simp [type.restored depth htype, ih depth hoperand]

theorem Expr.toJson_ne_null (e : Expr) : e.toJson ≠ .null := by
  cases e <;> simp [toJson, nodeJson]

theorem AssignTarget.restored (t : AssignTarget) : Restored toJson AssignTarget.decode t := by
  intro depth h
  cases t with
  | toLocal name | toParameter name =>
    obtain ⟨depth, rfl, -⟩ := exists_of_depth_obj_le h
    rfl
  | toField field =>
    obtain ⟨depth, rfl, hcontent⟩ := exists_of_depth_obj_le h
    have hfield := field.restored depth (hcontent _ List.mem_cons_self)
    rw [toJson, variant, AssignTarget.decode]
    simp [asVariant, hfield]

namespace Stmt

theorem listToJson_eq (ss : List Stmt) : listToJson ss = ss.map toJson := by
  induction ss with
  | nil => rfl
  | cons s ss ih => rw [listToJson, ih, List.map_cons]

theorem optionToJson_eq (o : Option Stmt) : optionToJson o = ofOption toJson o := by
  cases o <;> rfl

theorem toJson_ne_null (s : Stmt) : s.toJson ≠ .null := by
  cases s <;> simp [toJson, nodeJson]

theorem restored_init (o : Option Expr) :
    Restored (ofOption Expr.toJson) (fun depth ↦ optional (Expr.decode depth)) o :=
  restored_option (fun e _ ↦ e.restored) Expr.toJson_ne_null

theorem restored (s : Stmt) : Restored toJson Stmt.decode s := by
  intro depth h
  induction s using Stmt.induction generalizing depth with
  | declare id name type init =>
    obtain ⟨depth, rfl, hfields⟩ := exists_of_depth_record_le h
    simp only [List.forall_mem_cons] at hfields
    obtain ⟨-, htype, hinit, -⟩ := hfields
    rw [toJson, decode_nodeJson _ _ _ _ (by decide), decodeKind]
    refine bind_variant_eq (bind_record_eq (by simp) ?_)
    simp [asText, type.restored depth htype, restored_init init depth hinit]
  | assign id target value =>
    obtain ⟨depth, rfl, hfields⟩ := exists_of_depth_record_le h
    simp only [List.forall_mem_cons] at hfields
    obtain ⟨htarget, hvalue, -⟩ := hfields
    rw [toJson, decode_nodeJson _ _ _ _ (by decide), decodeKind]
    refine bind_variant_eq (bind_record_eq (by simp) ?_)
    simp [target.restored depth htarget, value.restored depth hvalue]
  | store id array index value =>
    obtain ⟨depth, rfl, hfields⟩ := exists_of_depth_record_le h
    simp only [List.forall_mem_cons] at hfields
    obtain ⟨harray, hindex, hvalue, -⟩ := hfields
    rw [toJson, decode_nodeJson _ _ _ _ (by decide), decodeKind]
    refine bind_variant_eq (bind_record_eq (by simp) ?_)
    simp [array.restored depth harray, index.restored depth hindex,
      value.restored depth hvalue]
  | branch id condition thenBranch elseBranch iht ihe =>
    rw [toJson, optionToJson_eq] at h
    obtain ⟨depth, rfl, hfields⟩ := exists_of_depth_record_le h
    simp only [List.forall_mem_cons] at hfields
    obtain ⟨hcondition, hthen, helse, -⟩ := hfields
    have helse := restored_option ihe toJson_ne_null depth helse
    rw [toJson, decode_nodeJson _ _ _ _ (by decide), decodeKind, optionToJson_eq]
    refine bind_variant_eq (bind_record_eq (by simp) ?_)
    simp [condition.restored depth hcondition, iht depth hthen, helse]
  | whileLoop id condition body ih =>
    obtain ⟨depth, rfl, hfields⟩ := exists_of_depth_record_le h
    simp only [List.forall_mem_cons] at hfields
    obtain ⟨hcondition, hbody, -⟩ := hfields
    rw [toJson, decode_nodeJson _ _ _ _ (by decide), decodeKind]
    refine bind_variant_eq (bind_record_eq (by simp) ?_)
    simp [condition.restored depth hcondition, ih depth hbody]
  | forLoop id init condition step body ihi ihs ihb =>
    rw [toJson, optionToJson_eq, optionToJson_eq] at h
    obtain ⟨depth, rfl, hfields⟩ := exists_of_depth_record_le h
    simp only [List.forall_mem_cons] at hfields
    obtain ⟨hinit, hcondition, hstep, hbody, -⟩ := hfields
    have hinit := restored_option ihi toJson_ne_null depth hinit
    have hcondition := restored_init condition depth hcondition
    have hstep := restored_option ihs toJson_ne_null depth hstep
    rw [toJson, decode_nodeJson _ _ _ _ (by decide), decodeKind, optionToJson_eq,
      optionToJson_eq]
    refine bind_variant_eq (bind_record_eq (by simp) ?_)
    simp [hinit, hcondition, hstep, ihb depth hbody]
  | ret id value =>
    obtain ⟨depth, rfl, hcontent⟩ := exists_of_depth_node_le h
    rw [toJson, decode_nodeJson _ _ _ _ (by decide), decodeKind]
    exact bind_variant_eq (bind_eq_of_some (restored_init value depth hcontent) rfl)
  | eval id e =>
    obtain ⟨depth, rfl, hcontent⟩ := exists_of_depth_node_le h
    rw [toJson, decode_nodeJson _ _ _ _ (by decide), decodeKind]
    exact bind_variant_eq (bind_eq_of_some (e.restored depth hcontent) rfl)
  | block id stmts ih =>
    rw [toJson, listToJson_eq] at h
    obtain ⟨depth, rfl, hcontent⟩ := exists_of_depth_node_le h
    obtain ⟨depth, rfl, hstmts⟩ := exists_of_depth_arr_le hcontent
    have hdecode : decodeBlock (depth + 1) (.arr (stmts.map toJson)) = some stmts :=
      mapM_map_eq_some fun s hs ↦ ih s hs depth (hstmts _ (List.mem_map_of_mem hs))
    rw [toJson, decode_nodeJson _ _ _ _ (by decide), decodeKind, listToJson_eq]
    exact bind_variant_eq (bind_eq_of_some hdecode rfl)
  | breakLoop id | continueLoop id =>
    obtain ⟨depth, rfl, -⟩ := exists_of_depth_obj_le h
    rw [toJson, nodeJson, Stmt.decode]
    simp -implicitDefEqProofs [asUInt32_ofUInt32, decodeUnit_str, List.lookup_cons]
  | parallel id count index call results =>
    obtain ⟨depth, rfl, hfields⟩ := exists_of_depth_record_le h
    simp only [List.forall_mem_cons] at hfields
    obtain ⟨hcount, -, hcall, hresults, -⟩ := hfields
    rw [toJson, decode_nodeJson _ _ _ _ (by decide), decodeKind]
    refine bind_variant_eq (bind_record_eq (by simp) ?_)
    simp [asText, count.restored depth hcount, call.restored depth hcall,
      restored_text results depth hresults]

end Stmt

theorem Modifiers.restored (m : Modifiers) : Restored toJson Modifiers.decode m := by
  intro depth h
  obtain ⟨depth, rfl, -⟩ := exists_of_depth_obj_le h
  rw [toJson, Modifiers.decode]
  simp [Json.asBool, decodeUnit_str, m.visibility.lookup_name]

theorem Parameter.restored (p : Parameter) : Restored toJson Parameter.decode p := by
  intro depth h
  obtain ⟨depth, rfl, hfields⟩ := exists_of_depth_obj_le h
  simp only [List.forall_mem_cons] at hfields
  obtain ⟨-, htype, -⟩ := hfields
  rw [toJson, Parameter.decode]
  simp [asText, p.type.restored depth htype]

theorem MethodDecl.restored (m : MethodDecl) : Restored toJson MethodDecl.decode m := by
  intro depth h
  rw [toJson, Stmt.optionToJson_eq] at h
  obtain ⟨depth, rfl, hfields⟩ := exists_of_depth_obj_le h
  simp only [List.forall_mem_cons] at hfields
  obtain ⟨-, -, hinterface, hmodifiers, hparameters, htype, hbody, -⟩ := hfields
  have hinterface := restored_text m.explicitInterface depth hinterface
  have hmodifiers := m.modifiers.restored depth hmodifiers
  have hparameters :=
    restored_list (fun p (_ : p ∈ m.parameters) ↦ p.restored) depth hparameters
  have htype := m.returnType.restored depth htype
  have hbody :=
    restored_option (fun s (_ : s ∈ m.body) ↦ s.restored) Stmt.toJson_ne_null depth hbody
  rw [toJson, MethodDecl.decode, Stmt.optionToJson_eq]
  simp -implicitDefEqProofs [asUInt32_ofUInt32, asText, hinterface, hmodifiers, hparameters, htype,
    hbody]

theorem FieldDecl.restored (f : FieldDecl) : Restored toJson FieldDecl.decode f := by
  intro depth h
  obtain ⟨depth, rfl, hfields⟩ := exists_of_depth_obj_le h
  simp only [List.forall_mem_cons] at hfields
  obtain ⟨-, -, htype, -, -, -, hinitializer, -⟩ := hfields
  have htype := f.type.restored depth htype
  have hinitializer := Stmt.restored_init f.initializer depth hinitializer
  rw [toJson, FieldDecl.decode]
  simp -implicitDefEqProofs [asUInt32_ofUInt32, asText, Json.asBool, decodeUnit_str,
    f.visibility.lookup_name, htype, hinitializer]

theorem TypeDecl.restored (t : TypeDecl) : Restored toJson TypeDecl.decode t := by
  intro depth h
  obtain ⟨depth, rfl, hfields⟩ := exists_of_depth_obj_le h
  simp only [List.forall_mem_cons] at hfields
  obtain ⟨-, -, -, -, hinterfaces, hfields, hmethods, -⟩ := hfields
  have hinterfaces :=
    restored_list (fun s (_ : s ∈ t.interfaces) ↦ restored_str s) depth hinterfaces
  have hfields := restored_list (fun f (_ : f ∈ t.fields) ↦ f.restored) depth hfields
  have hmethods := restored_list (fun m (_ : m ∈ t.methods) ↦ m.restored) depth hmethods
  rw [toJson, TypeDecl.decode]
  simp -implicitDefEqProofs [asUInt32_ofUInt32, asText, decodeUnit_str, t.kind.lookup_name,
    t.visibility.lookup_name, hinterfaces, hfields, hmethods]

theorem SyntaxTree.restored (t : SyntaxTree) : Restored toJson SyntaxTree.decode t := by
  intro depth h
  obtain ⟨depth, rfl, hfields⟩ := exists_of_depth_obj_le h
  have htypes := restored_list (fun d (_ : d ∈ t.types) ↦ d.restored) depth
    (hfields _ List.mem_cons_self)
  rw [toJson, SyntaxTree.decode]
  simp [htypes]

namespace Json

variable {α : Type} {encode : α → Json}

@[simp]
theorem plain_ofOption {o : Option α} : (ofOption encode o).Plain ↔ ∀ a ∈ o, (encode a).Plain := by
  cases o <;> simp [ofOption]

end Json

theorem TypeRef.plain (t : TypeRef) : t.toJson.Plain := by
  induction t with
  | array element ih => simp [toJson, variant, ih]
  | _ => simp [toJson, variant, ofUInt16]

theorem FieldRef.plain (f : FieldRef) : f.toJson.Plain := by
  simp [toJson]

theorem Expr.plain (e : Expr) : e.toJson.Plain := by
  induction e using Expr.induction with
  | literal id value =>
    cases value <;> simp [toJson, Literal.toJson, nodeJson, variant, ofUInt16, ofUInt32, ofInt64]
  | call id target args ih =>
    simpa [toJson, MemberRef.toJson, nodeJson, variant, ofUInt32, ofList, listToJson_eq,
      TypeRef.plain] using ih
  | unary id op operand ih => simp [toJson, nodeJson, variant, ofUInt32, ih]
  | binary id op lhs rhs ihl ihr => simp [toJson, nodeJson, variant, ofUInt32, ihl, ihr]
  | newArray id element length ih => simp [toJson, nodeJson, variant, ofUInt32, element.plain, ih]
  | arrayElement id array index iha ihi => simp [toJson, nodeJson, variant, ofUInt32, iha, ihi]
  | arrayLength id array ih => simp [toJson, nodeJson, variant, ofUInt32, ih]
  | conditional id condition ifTrue ifFalse ihc iht ihf =>
    simp [toJson, nodeJson, variant, ofUInt32, ihc, iht, ihf]
  | cast id type operand ih => simp [toJson, nodeJson, variant, ofUInt32, type.plain, ih]
  | getField id field => simp [toJson, nodeJson, variant, ofUInt32, field.plain]
  | _ => simp [toJson, nodeJson, variant, ofUInt32]

theorem Stmt.plain (s : Stmt) : s.toJson.Plain := by
  induction s using Stmt.induction with
  | assign id target value =>
    cases target <;>
      simp [toJson, AssignTarget.toJson, nodeJson, variant, ofUInt32, FieldRef.plain, value.plain]
  | branch id condition thenBranch elseBranch iht ihe =>
    simpa [toJson, nodeJson, variant, ofUInt32, optionToJson_eq, condition.plain, iht] using ihe
  | whileLoop id condition body ih =>
    simp [toJson, nodeJson, variant, ofUInt32, condition.plain, ih]
  | forLoop id init condition step body ihi ihs ihb =>
    simpa [toJson, nodeJson, variant, ofUInt32, optionToJson_eq, Expr.plain, ihb] using ⟨ihi, ihs⟩
  | block id stmts ih =>
    simpa [toJson, nodeJson, variant, ofUInt32, listToJson_eq] using ih
  | _ => simp [toJson, nodeJson, variant, ofUInt32, TypeRef.plain, Expr.plain]

theorem MethodDecl.plain (m : MethodDecl) : m.toJson.Plain := by
  simp [toJson, Modifiers.toJson, Parameter.toJson, ofUInt32, ofList, Stmt.optionToJson_eq,
    TypeRef.plain, Stmt.plain]

theorem FieldDecl.plain (f : FieldDecl) : f.toJson.Plain := by
  simp [toJson, ofUInt32, TypeRef.plain, Expr.plain]

theorem TypeDecl.plain (t : TypeDecl) : t.toJson.Plain := by
  simp [toJson, ofUInt32, ofList, FieldDecl.plain, MethodDecl.plain]

theorem SyntaxTree.plain (t : SyntaxTree) : t.toJson.Plain := by
  simp [toJson, ofList, TypeDecl.plain]

end Fabric
