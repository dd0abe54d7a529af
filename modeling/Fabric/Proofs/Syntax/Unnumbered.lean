import Fabric.Proofs.Json.Unnumbered
import Fabric.Proofs.Syntax.Interchange
import Fabric.Proofs.Syntax.Renumbering

namespace Fabric

open Json

section

variable {α : Type} {R : α → α → Prop}

theorem asUnit_obj (dialect : Dialect) (names : List (String × α))
    (members : List (String × Json)) :
    asUnit dialect names (.obj members) = (asVariant (.obj members) >>= fun variant ↦
      if dialect.isNothing variant.2 then names.lookup variant.1 else none) := by
  match members with
  | [] => rfl
  | [_] => rfl
  | _ :: _ :: _ => rfl

theorem isNothing_withoutIds (j : Json) :
    Dialect.text.isNothing j.withoutIds = Dialect.text.isNothing j := by
  cases j <;> rfl

/-- The numbers of nodes do not matter in the content of nodes of a kind. -/
def KindAlike (R : α → α → Prop) (decode : NodeId → Json → Option α) (tag : String) : Prop :=
  ∀ (id' id : NodeId) (payload : Json), Option.Rel R
    (decode id' (variant tag payload.withoutIds)) (decode id (variant tag payload))

theorem rel_asVariant {f f' : String × Json → Option α} {tag : String} {payload payload' : Json}
    (h : Option.Rel R (f (tag, payload)) (f' (tag, payload'))) :
    Option.Rel R (asVariant (variant tag payload) >>= f)
      (asVariant (variant tag payload') >>= f') :=
  h

theorem ignoresIds_decodeUnit (names : List (String × α))
    (h : ∀ key ∈ nodeKeys, names.lookup key = none) (depth : Nat) :
    IgnoresIds Eq (decodeUnit names depth) where
  agree j := by
    cases j with
    | obj members =>
      cases depth with
      | zero =>
        rw [withoutIds_obj]
        exact .none
      | succ depth =>
        rw [withoutIds_obj, decodeUnit, decodeUnit, asUnit_obj, asUnit_obj, ← withoutIds_obj]
        · refine rel_variant (fun key hkey payload ↦ ?_) (fun tag payload ↦ rel_of_eq ?_) _
          · simp only [h key hkey, ite_self]
          · rw [isNothing_withoutIds]
        all_goals
          intros
          contradiction
    | arr items =>
      rw [withoutIds_arr]
      cases depth <;> exact .none
    | _ => exact rel_of_eq rfl
  number n := by cases depth <;> rfl

theorem mem_of_decodeUnit {names : List (String × α)} {depth : Nat} {j : Json} {a : α}
    (h : decodeUnit names depth j = some a) : a ∈ names.map Prod.snd := by
  have hmem {tag : String} (h : names.lookup tag = some a) : a ∈ names.map Prod.snd := by
    obtain ⟨_, _, heq, -⟩ := List.lookup_eq_some_iff.1 h
    simp [heq]
  unfold decodeUnit asUnit at h
  split at h
  · cases h
  · split at h
    · exact hmem h
    · split at h
      · exact hmem h
      · cases h
    · cases h

theorem ignoresIds_decodeList {decode : Nat → Json → Option α}
    (h : ∀ depth, IgnoresIds R (decode depth)) (depth : Nat) :
    IgnoresIds (List.Forall₂ R) (decodeList decode depth) := by
  cases depth with
  | zero => exact ignoresIds_none
  | succ depth => exact (h depth).list

theorem ignoresIds_decodeList_eq {decode : Nat → Json → Option α}
    (h : ∀ depth, IgnoresIds Eq (decode depth)) (depth : Nat) :
    IgnoresIds Eq (decodeList decode depth) := by
  have hlist := ignoresIds_decodeList h depth
  rwa [List.forall₂_eq_eq_eq] at hlist

end

theorem content_text (names : List String) (j : Json) :
    content .text names j = record names j := by
  cases j <;> rfl

theorem TypeRef.decode_obj (dialect : Dialect) (depth : Nat) (members : List (String × Json)) :
    TypeRef.decode dialect depth (.obj members) =
      (asVariant (.obj members) >>= fun variant ↦
        TypeRef.decode dialect depth (.obj [variant])) := by
  match members with
  | [] => cases depth <;> rfl
  | [_] => rfl
  | _ :: _ :: _ => cases depth <;> rfl

theorem TypeRef.decode_node {key : String} (hkey : key ∈ nodeKeys) (depth : Nat) (payload : Json) :
    TypeRef.decode .text depth (.obj [(key, payload)]) = none := by
  simp only [nodeKeys, List.mem_cons, List.not_mem_nil, or_false] at hkey
  cases depth <;> rcases hkey with rfl | rfl | rfl <;> rfl

theorem TypeRef.decode_variant {depth : Nat}
    (ih : ∀ d < depth, IgnoresIds Eq (TypeRef.decode .text d)) (tag : String) (payload : Json) :
    TypeRef.decode .text depth (.obj [(tag, payload.withoutIds)]) =
      TypeRef.decode .text depth (.obj [(tag, payload)]) := by
  cases depth with
  | zero => rfl
  | succ depth =>
    unfold TypeRef.decode
    split
    next => cases payload <;> rfl
    next => cases payload <;> rfl
    next =>
      cases depth with
      | zero => rfl
      | succ depth =>
        dsimp only
        rw [content_text, content_text]
        refine eq_of_rel (rel_bind (record_withoutIds _ _) fun r r' h ↦ rel_of_eq ?_)
        rcases h.same_or_none (by decide) asBool_of_isKind with hsame | ⟨hnone, hnone'⟩
        · rw [h.required_eq ignoresIds_asBool "signed" (by decide),
            RecordAlike.required_eq_of_same (hsame "width" (by decide)) asUInt16_withoutIds]
        · simp [hnone, hnone']
    next => rw [eq_of_rel ((ih depth (Nat.lt_succ_self depth)).agree payload)]
    next => rw [eq_of_rel (ignoresIds_asText.agree payload)]
    next => rfl

theorem ignoresIds_decodeType (depth : Nat) : IgnoresIds Eq (TypeRef.decode .text depth) := by
  induction depth using Nat.strong_induction_on with
  | h depth ih =>
    refine ⟨fun j ↦ ?_, fun n ↦ by cases depth <;> rfl⟩
    cases j with
    | obj members =>
      rw [withoutIds_obj, TypeRef.decode_obj, TypeRef.decode_obj, ← withoutIds_obj]
      exact rel_variant (fun key hkey ↦ TypeRef.decode_node hkey depth)
        (fun tag payload ↦ rel_of_eq (TypeRef.decode_variant ih tag payload)) _
    | arr items =>
      rw [withoutIds_arr]
      cases depth <;> exact .none
    | _ => exact rel_of_eq rfl

theorem ignoresIds_decodeLiteral (depth : Nat) : IgnoresIds Eq (Literal.decode .text depth) := by
  cases depth with
  | zero => exact ignoresIds_none
  | succ depth =>
    refine ignoresIds_variant (forall_nodeKeys.2 ⟨fun _ ↦ rfl, fun _ ↦ rfl, fun _ ↦ rfl⟩) ?_
    intro tag payload
    dsimp only
    split
    next =>
      rw [eq_of_rel (ignoresIds_asBool.agree payload)]
      exact rel_of_eq rfl
    next =>
      rw [content_text, content_text]
      split
      next => exact .none
      next =>
        refine rel_bind (record_withoutIds _ _) fun r r' h ↦ rel_of_eq ?_
        rcases h.same_or_none (by decide) asUInt16_of_isKind with hsame | ⟨hnone, hnone'⟩
        · rw [h.required_eq ignoresIds_asBool "signed" (by decide),
            RecordAlike.required_eq_of_same (hsame "value" (by decide)) asInt64_withoutIds,
            RecordAlike.required_eq_of_same (hsame "width" (by decide)) asUInt16_withoutIds]
        · simp [hnone, hnone']
    next => exact .none

theorem ignoresIds_decodeField (depth : Nat) : IgnoresIds Eq (FieldRef.decode depth) := by
  cases depth with
  | zero => exact ignoresIds_none
  | succ depth =>
    refine ignoresIds_record fun r r' h ↦ ?_
    rw [h.required_eq ignoresIds_asText "declaring_type" (by decide),
      h.required_eq ignoresIds_asText "name" (by decide)]
    exact rel_of_eq rfl

theorem ignoresIds_decodeMember (depth : Nat) : IgnoresIds Eq (MemberRef.decode .text depth) := by
  cases depth with
  | zero => exact ignoresIds_none
  | succ depth =>
    refine ignoresIds_record fun r r' h ↦ ?_
    rw [h.required_eq ignoresIds_asText "declaring_type" (by decide),
      h.required_eq ignoresIds_asText "name" (by decide),
      h.withDefault_eq (ignoresIds_decodeList_eq ignoresIds_decodeType depth)
        "parameter_types" [] (by decide)]
    exact rel_of_eq rfl

theorem ignoresIds_decodeTarget (depth : Nat) : IgnoresIds Eq (AssignTarget.decode depth) := by
  cases depth with
  | zero => exact ignoresIds_none
  | succ depth =>
    refine ignoresIds_variant (forall_nodeKeys.2 ⟨fun _ ↦ rfl, fun _ ↦ rfl, fun _ ↦ rfl⟩) ?_
    intro tag payload
    dsimp only
    rw [eq_of_rel (ignoresIds_asText.agree payload),
      eq_of_rel ((ignoresIds_decodeField depth).agree payload)]
    exact rel_of_eq rfl

theorem ignoresIds_decodeModifiers (depth : Nat) : IgnoresIds Eq (Modifiers.decode depth) := by
  cases depth with
  | zero => exact ignoresIds_none
  | succ depth =>
    refine ignoresIds_record fun r r' h ↦ ?_
    have hflag (name : String) (hname : name ≠ "id") :=
      h.withDefault_eq ignoresIds_asBool name false hname
    rw [h.withDefault_eq (ignoresIds_decodeUnit _ (by decide) depth) "visibility" _ (by decide),
      hflag "is_virtual" (by decide), hflag "is_static" (by decide), hflag "is_async" (by decide),
      hflag "is_abstract" (by decide), hflag "inline_hint" (by decide)]
    exact rel_of_eq rfl

theorem ignoresIds_decodeParameter (depth : Nat) : IgnoresIds Eq (Parameter.decode depth) := by
  cases depth with
  | zero => exact ignoresIds_none
  | succ depth =>
    refine ignoresIds_record fun r r' h ↦ ?_
    rw [h.required_eq ignoresIds_asText "name" (by decide),
      h.required_eq (ignoresIds_decodeType depth) "ty" (by decide)]
    exact rel_of_eq rfl

namespace Expr

theorem ignoresIds_decodeArgs {depth : Nat}
    (ih : ∀ d < depth, IgnoresIds (Alike number) (Expr.decode d)) :
    IgnoresIds (List.Forall₂ (Alike number)) (decodeArgs depth) := by
  cases depth with
  | zero => exact ignoresIds_none
  | succ depth => exact (ih depth (Nat.lt_succ_self depth)).list

section

variable {depth : Nat}

theorem literal_alike : KindAlike (Alike number) (decodeKind (depth + 1)) "Literal" := by
  intro id' id payload
  have hliteral := (ignoresIds_decodeLiteral depth).agree payload
  refine rel_asVariant (rel_bind hliteral fun l l' hl ↦ .some fun _ ↦ ?_)
  simp only [number, hl]

theorem getLocal_alike : KindAlike (Alike number) (decodeKind (depth + 1)) "Local" := by
  intro id' id payload
  have hname := ignoresIds_asText.agree payload
  refine rel_asVariant (rel_bind hname fun name name' hn ↦ .some fun _ ↦ ?_)
  simp only [number, hn]

theorem getParameter_alike : KindAlike (Alike number) (decodeKind (depth + 1)) "Parameter" := by
  intro id' id payload
  have hname := ignoresIds_asText.agree payload
  refine rel_asVariant (rel_bind hname fun name name' hn ↦ .some fun _ ↦ ?_)
  simp only [number, hn]

theorem getField_alike : KindAlike (Alike number) (decodeKind (depth + 1)) "Field" := by
  intro id' id payload
  have hfield := (ignoresIds_decodeField depth).agree payload
  refine rel_asVariant (rel_bind hfield fun f f' hf ↦ .some fun _ ↦ ?_)
  simp only [number, hf]

variable (hdecode : IgnoresIds (Alike number) (Expr.decode depth))
include hdecode

theorem arrayLength_alike : KindAlike (Alike number) (decodeKind (depth + 1)) "ArrayLength" := by
  intro id' id payload
  refine rel_asVariant (rel_bind (hdecode.agree payload) fun array array' ha ↦ .some fun _ ↦ ?_)
  simp only [number, ha]

theorem unary_alike : KindAlike (Alike number) (decodeKind (depth + 2)) "Unary" := by
  intro id' id payload
  have hop := ignoresIds_decodeUnit UnaryOp.names (by decide) depth
  refine rel_asVariant (rel_bind (record_withoutIds _ payload) fun r r' h ↦ ?_)
  refine rel_bind (h.required hop "op" (by decide)) fun op op' hop ↦ ?_
  refine rel_bind (h.required hdecode "operand" (by decide)) fun e e' he ↦ .some fun _ ↦ ?_
  simp only [number, hop, he]

theorem binary_alike : KindAlike (Alike number) (decodeKind (depth + 2)) "Binary" := by
  intro id' id payload
  have hop := ignoresIds_decodeUnit BinaryOp.names (by decide) depth
  refine rel_asVariant (rel_bind (record_withoutIds _ payload) fun r r' h ↦ ?_)
  refine rel_bind (h.required hop "op" (by decide)) fun op op' hop ↦ ?_
  refine rel_bind (h.required hdecode "lhs" (by decide)) fun lhs lhs' hl ↦ ?_
  refine rel_bind (h.required hdecode "rhs" (by decide)) fun rhs rhs' hr ↦ .some fun _ ↦ ?_
  simp only [number, hop, hl, hr]

omit hdecode in
theorem call_alike (hargs : IgnoresIds (List.Forall₂ (Alike number)) (decodeArgs depth)) :
    KindAlike (Alike number) (decodeKind (depth + 2)) "Call" := by
  intro id' id payload
  have htarget := ignoresIds_decodeMember depth
  refine rel_asVariant (rel_bind (record_withoutIds _ payload) fun r r' h ↦ ?_)
  refine rel_bind (h.required htarget "target" (by decide)) fun t t' ht ↦ ?_
  refine rel_bind (h.required hargs "args" (by decide)) fun args args' hargs ↦ .some fun _ ↦ ?_
  simp only [number, ht, numberList_congr hargs]

theorem newArray_alike : KindAlike (Alike number) (decodeKind (depth + 2)) "NewArray" := by
  intro id' id payload
  have htype := ignoresIds_decodeType depth
  refine rel_asVariant (rel_bind (record_withoutIds _ payload) fun r r' h ↦ ?_)
  refine rel_bind (h.required htype "element" (by decide)) fun type type' ht ↦ ?_
  refine rel_bind (h.required hdecode "length" (by decide)) fun length length' hl ↦ .some fun _ ↦ ?_
  simp only [number, ht, hl]

theorem arrayElement_alike : KindAlike (Alike number) (decodeKind (depth + 2)) "ArrayElement" := by
  intro id' id payload
  refine rel_asVariant (rel_bind (record_withoutIds _ payload) fun r r' h ↦ ?_)
  refine rel_bind (h.required hdecode "array" (by decide)) fun array array' ha ↦ ?_
  refine rel_bind (h.required hdecode "index" (by decide)) fun index index' hi ↦ .some fun _ ↦ ?_
  simp only [number, ha, hi]

theorem conditional_alike : KindAlike (Alike number) (decodeKind (depth + 2)) "Conditional" := by
  intro id' id payload
  refine rel_asVariant (rel_bind (record_withoutIds _ payload) fun r r' h ↦ ?_)
  refine rel_bind (h.required hdecode "condition" (by decide)) fun c c' hc ↦ ?_
  refine rel_bind (h.required hdecode "if_true" (by decide)) fun t t' ht ↦ ?_
  refine rel_bind (h.required hdecode "if_false" (by decide)) fun f f' hf ↦ .some fun _ ↦ ?_
  simp only [number, hc, ht, hf]

theorem cast_alike : KindAlike (Alike number) (decodeKind (depth + 2)) "Cast" := by
  intro id' id payload
  have htype := ignoresIds_decodeType depth
  refine rel_asVariant (rel_bind (record_withoutIds _ payload) fun r r' h ↦ ?_)
  refine rel_bind (h.required htype "ty" (by decide)) fun type type' ht ↦ ?_
  refine rel_bind (h.required hdecode "operand" (by decide)) fun e e' he ↦ .some fun _ ↦ ?_
  simp only [number, ht, he]

end

theorem decodeKind_alike {depth : Nat}
    (ih : ∀ d < depth, IgnoresIds (Alike number) (Expr.decode d)) (id' id : NodeId) (j : Json) :
    Option.Rel (Alike number) (decodeKind depth id' j.withoutIds) (decodeKind depth id j) := by
  cases depth with
  | zero =>
    rw [decodeKind, decodeKind]
    exact .none
  | succ depth =>
    rw [decodeKind, decodeKind]
    refine rel_variant (forall_nodeKeys.2 ?_) ?_ j
    · cases depth <;> exact ⟨fun _ ↦ rfl, fun _ ↦ rfl, fun _ ↦ rfl⟩
    intro tag payload
    dsimp only
    split
    · exact literal_alike id' id payload
    · exact @getLocal_alike depth id' id payload
    · exact @getParameter_alike depth id' id payload
    · exact getField_alike id' id payload
    · exact arrayLength_alike (ih depth (by omega)) id' id payload
    · cases depth with
      | zero => exact .none
      | succ depth =>
        have hdecode := ih depth (by omega)
        dsimp only
        split
        · exact unary_alike hdecode id' id payload
        · exact binary_alike hdecode id' id payload
        · have hargs := ignoresIds_decodeArgs fun d (hd : d < depth) ↦ ih d (by omega)
          exact call_alike hargs id' id payload
        · exact newArray_alike hdecode id' id payload
        · exact arrayElement_alike hdecode id' id payload
        · exact conditional_alike hdecode id' id payload
        · exact cast_alike hdecode id' id payload
        · exact .none

theorem ignoresIds_decode (depth : Nat) : IgnoresIds (Alike number) (Expr.decode depth) := by
  induction depth using Nat.strong_induction_on with
  | h depth ih =>
    cases depth with
    | zero => exact ignoresIds_none
    | succ depth =>
      have hkind (id : NodeId) (n : Int) : decodeKind depth id (.int n) = none := by
        cases depth <;> rfl
      refine ignoresIds_record fun r r' h ↦ rel_bind h.idField fun id' id _ ↦ ?_
      refine (h.fields "kind" (by decide)).bind (fun j ↦ ?_) (fun m n ↦ ?_)
      · exact decodeKind_alike (fun d hd ↦ ih d (by omega)) id' id j
      · rw [hkind, hkind]
        exact .none

end Expr

namespace Stmt

theorem ignoresIds_decodeBlock {depth : Nat}
    (ih : ∀ d < depth, IgnoresIds (Alike number) (Stmt.decode d)) :
    IgnoresIds (List.Forall₂ (Alike number)) (decodeBlock depth) := by
  cases depth with
  | zero => exact ignoresIds_none
  | succ depth => exact (ih depth (Nat.lt_succ_self depth)).list

section

variable {depth : Nat}

theorem ret_alike : KindAlike (Alike number) (decodeKind (depth + 1)) "Return" := by
  intro id' id payload
  have hvalue := (Expr.ignoresIds_decode depth).optional.agree payload
  refine rel_asVariant (rel_bind hvalue fun value value' hv ↦ .some fun _ ↦ ?_)
  simp only [number, numberOption_congr hv]

theorem eval_alike : KindAlike (Alike number) (decodeKind (depth + 1)) "Expr" := by
  intro id' id payload
  have hexpr := (Expr.ignoresIds_decode depth).agree payload
  refine rel_asVariant (rel_bind hexpr fun e e' he ↦ .some fun _ ↦ ?_)
  simp only [number, he]

theorem block_alike (hblock : IgnoresIds (List.Forall₂ (Alike number)) (decodeBlock depth)) :
    KindAlike (Alike number) (decodeKind (depth + 1)) "Block" := by
  intro id' id payload
  refine rel_asVariant (rel_bind (hblock.agree payload) fun ss ss' hs ↦ .some fun _ ↦ ?_)
  simp only [number, numberList_congr hs]

theorem declare_alike : KindAlike (Alike number) (decodeKind (depth + 2)) "LocalDecl" := by
  intro id' id payload
  have htype := ignoresIds_decodeType depth
  have hexpr := Expr.ignoresIds_decode depth
  refine rel_asVariant (rel_bind (record_withoutIds _ payload) fun r r' h ↦ ?_)
  refine rel_bind (h.required ignoresIds_asText "name" (by decide)) fun name name' hn ↦ ?_
  refine rel_bind (h.required htype "ty" (by decide)) fun type type' ht ↦ ?_
  refine rel_bind (h.nullable hexpr "init" (by decide)) fun init init' hi ↦ .some fun _ ↦ ?_
  simp only [number, hn, ht, numberOption_congr hi]

theorem assign_alike : KindAlike (Alike number) (decodeKind (depth + 2)) "Assign" := by
  intro id' id payload
  have htarget := ignoresIds_decodeTarget depth
  have hexpr := Expr.ignoresIds_decode depth
  refine rel_asVariant (rel_bind (record_withoutIds _ payload) fun r r' h ↦ ?_)
  refine rel_bind (h.required htarget "target" (by decide)) fun t t' ht ↦ ?_
  refine rel_bind (h.required hexpr "value" (by decide)) fun value value' hv ↦ .some fun _ ↦ ?_
  simp only [number, ht, hv]

theorem store_alike : KindAlike (Alike number) (decodeKind (depth + 2)) "ArrayAssign" := by
  intro id' id payload
  have hexpr := Expr.ignoresIds_decode depth
  refine rel_asVariant (rel_bind (record_withoutIds _ payload) fun r r' h ↦ ?_)
  refine rel_bind (h.required hexpr "array" (by decide)) fun array array' ha ↦ ?_
  refine rel_bind (h.required hexpr "index" (by decide)) fun index index' hi ↦ ?_
  refine rel_bind (h.required hexpr "value" (by decide)) fun value value' hv ↦ .some fun _ ↦ ?_
  simp only [number, ha, hi, hv]

variable (hstmt : IgnoresIds (Alike number) (Stmt.decode depth))
include hstmt

theorem branch_alike : KindAlike (Alike number) (decodeKind (depth + 2)) "If" := by
  intro id' id payload
  have hexpr := Expr.ignoresIds_decode depth
  refine rel_asVariant (rel_bind (record_withoutIds _ payload) fun r r' h ↦ ?_)
  refine rel_bind (h.required hexpr "condition" (by decide)) fun c c' hc ↦ ?_
  refine rel_bind (h.required hstmt "then_branch" (by decide)) fun t t' ht ↦ ?_
  refine rel_bind (h.nullable hstmt "else_branch" (by decide)) fun e e' he ↦ .some fun _ ↦ ?_
  simp only [number, hc, ht, numberStmtOption_congr he]

theorem whileLoop_alike : KindAlike (Alike number) (decodeKind (depth + 2)) "While" := by
  intro id' id payload
  have hexpr := Expr.ignoresIds_decode depth
  refine rel_asVariant (rel_bind (record_withoutIds _ payload) fun r r' h ↦ ?_)
  refine rel_bind (h.required hexpr "condition" (by decide)) fun c c' hc ↦ ?_
  refine rel_bind (h.required hstmt "body" (by decide)) fun body body' hb ↦ .some fun _ ↦ ?_
  simp only [number, hc, hb]

theorem forLoop_alike : KindAlike (Alike number) (decodeKind (depth + 2)) "For" := by
  intro id' id payload
  have hexpr := Expr.ignoresIds_decode depth
  refine rel_asVariant (rel_bind (record_withoutIds _ payload) fun r r' h ↦ ?_)
  refine rel_bind (h.nullable hstmt "init" (by decide)) fun init init' hi ↦ ?_
  refine rel_bind (h.nullable hexpr "condition" (by decide)) fun c c' hc ↦ ?_
  refine rel_bind (h.nullable hstmt "step" (by decide)) fun step step' hs ↦ ?_
  refine rel_bind (h.required hstmt "body" (by decide)) fun body body' hb ↦ .some fun _ ↦ ?_
  simp only [number, numberStmtOption_congr hi, numberOption_congr hc, numberStmtOption_congr hs,
    hb]

omit hstmt in
theorem parallel_alike : KindAlike (Alike number) (decodeKind (depth + 2)) "ParallelInvoke" := by
  intro id' id payload
  have hexpr := Expr.ignoresIds_decode depth
  refine rel_asVariant (rel_bind (record_withoutIds _ payload) fun r r' h ↦ ?_)
  refine rel_bind (h.required hexpr "count" (by decide)) fun count count' hc ↦ ?_
  refine rel_bind (h.required ignoresIds_asText "index" (by decide)) fun index index' hi ↦ ?_
  refine rel_bind (h.required hexpr "call" (by decide)) fun call call' hcall ↦ ?_
  refine rel_bind (h.nullable ignoresIds_asText "results" (by decide)) fun results results' hr ↦
    .some fun _ ↦ ?_
  simp only [number, hc, hi, hcall, eq_of_rel hr]

end

theorem decodeKind_alike {depth : Nat}
    (ih : ∀ d < depth, IgnoresIds (Alike number) (Stmt.decode d)) (id' id : NodeId) (j : Json) :
    Option.Rel (Alike number) (decodeKind depth id' j.withoutIds) (decodeKind depth id j) := by
  cases depth with
  | zero =>
    rw [decodeKind, decodeKind]
    exact .none
  | succ depth =>
    rw [decodeKind, decodeKind]
    refine rel_variant (forall_nodeKeys.2 ?_) ?_ j
    · cases depth <;> exact ⟨fun _ ↦ rfl, fun _ ↦ rfl, fun _ ↦ rfl⟩
    intro tag payload
    dsimp only
    split
    · exact ret_alike id' id payload
    · exact eval_alike id' id payload
    · have hblock := ignoresIds_decodeBlock fun d (hd : d < depth) ↦ ih d (by omega)
      exact block_alike hblock id' id payload
    · cases depth with
      | zero => exact .none
      | succ depth =>
        have hstmt := ih depth (by omega)
        dsimp only
        split
        · exact declare_alike id' id payload
        · exact assign_alike id' id payload
        · exact store_alike id' id payload
        · exact branch_alike hstmt id' id payload
        · exact whileLoop_alike hstmt id' id payload
        · exact forLoop_alike hstmt id' id payload
        · exact parallel_alike id' id payload
        · exact .none

/-- A statement without content differs in its number only. -/
theorem jump_alike {depth : Nat} {j : Json} {make : NodeId → Stmt}
    (h : decodeUnit [("Break", breakLoop), ("Continue", continueLoop)] depth j = some make)
    (id' id : NodeId) : Alike number (make id') (make id) := by
  have hmem := mem_of_decodeUnit h
  simp only [List.map_cons, List.map_nil, List.mem_cons, List.not_mem_nil, or_false] at hmem
  rcases hmem with rfl | rfl <;> exact fun _ ↦ rfl

theorem ignoresIds_decode (depth : Nat) : IgnoresIds (Alike number) (Stmt.decode depth) := by
  induction depth using Nat.strong_induction_on with
  | h depth ih =>
    cases depth with
    | zero => exact ignoresIds_none
    | succ depth =>
      refine ignoresIds_record fun r r' h ↦ rel_bind h.idField fun id' id _ ↦ ?_
      refine (h.fields "kind" (by decide)).bind (fun j ↦ ?_) (fun m n ↦ ?_)
      · rw [eq_of_rel ((ignoresIds_decodeUnit _ (by decide) depth).agree j)]
        split
        next make hmake => exact .some (jump_alike hmake id' id)
        next => exact decodeKind_alike (fun d hd ↦ ih d (by omega)) id' id j
      · cases depth <;> exact .none

end Stmt

theorem FieldDecl.ignoresIds_decode (depth : Nat) :
    IgnoresIds (Alike number) (FieldDecl.decode depth) := by
  cases depth with
  | zero => exact ignoresIds_none
  | succ depth =>
    have htype := ignoresIds_decodeType depth
    have hvisibility := ignoresIds_decodeUnit Visibility.names (by decide) depth
    have hinitializer := (Expr.ignoresIds_decode depth).optional
    refine ignoresIds_record fun r r' h ↦ rel_bind h.idField fun id' id _ ↦ ?_
    refine rel_bind (h.required ignoresIds_asText "name" (by decide)) fun name name' hn ↦ ?_
    refine rel_bind (h.required htype "ty" (by decide)) fun type type' ht ↦ ?_
    refine rel_bind (h.withDefault hvisibility "visibility" rfl (by decide)) fun v v' hv ↦ ?_
    refine rel_bind (h.withDefault ignoresIds_asBool "is_static" rfl (by decide)) fun s s' hs ↦ ?_
    refine rel_bind (h.withDefault ignoresIds_asBool "is_readonly" rfl (by decide)) fun w w' hw ↦ ?_
    refine rel_bind (h.withDefault hinitializer "initializer" .none (by decide)) fun i i' hi ↦
      .some fun _ ↦ ?_
    simp only [number, hn, ht, hv, hs, hw, Stmt.numberOption_congr hi]

theorem MethodDecl.ignoresIds_decode (depth : Nat) :
    IgnoresIds (Alike number) (MethodDecl.decode depth) := by
  cases depth with
  | zero => exact ignoresIds_none
  | succ depth =>
    have hinterface := ignoresIds_asText.optional_eq
    have hmodifiers := ignoresIds_decodeModifiers depth
    have hparameters := ignoresIds_decodeList_eq ignoresIds_decodeParameter depth
    have htype := ignoresIds_decodeType depth
    have hbody := (Stmt.ignoresIds_decode depth).optional
    refine ignoresIds_record fun r r' h ↦ rel_bind h.idField fun id' id _ ↦ ?_
    refine rel_bind (h.required ignoresIds_asText "name" (by decide)) fun name name' hn ↦ ?_
    refine rel_bind (h.withDefault hinterface "explicit_interface" rfl (by decide)) fun i i' hi ↦ ?_
    refine rel_bind (h.withDefault hmodifiers "modifiers" rfl (by decide)) fun m m' hm ↦ ?_
    refine rel_bind (h.withDefault hparameters "parameters" rfl (by decide)) fun ps ps' hp ↦ ?_
    refine rel_bind (h.withDefault htype "return_type" rfl (by decide)) fun type type' ht ↦ ?_
    refine rel_bind (h.withDefault hbody "body" .none (by decide)) fun body body' hb ↦
      .some fun _ ↦ ?_
    simp only [number, hn, hi, hm, hp, ht, Stmt.numberStmtOption_congr hb]

theorem TypeDecl.ignoresIds_decode (depth : Nat) :
    IgnoresIds (Alike number) (TypeDecl.decode depth) := by
  cases depth with
  | zero => exact ignoresIds_none
  | succ depth =>
    have hkind := ignoresIds_decodeUnit TypeKind.names (by decide) depth
    have hvisibility := ignoresIds_decodeUnit Visibility.names (by decide) depth
    have hinterfaces := ignoresIds_decodeList_eq (fun _ ↦ ignoresIds_asText) depth
    have hfields := ignoresIds_decodeList FieldDecl.ignoresIds_decode depth
    have hmethods := ignoresIds_decodeList MethodDecl.ignoresIds_decode depth
    refine ignoresIds_record fun r r' h ↦ rel_bind h.idField fun id' id _ ↦ ?_
    refine rel_bind (h.required ignoresIds_asText "full_name" (by decide)) fun name name' hn ↦ ?_
    refine rel_bind (h.withDefault hkind "kind" rfl (by decide)) fun k k' hk ↦ ?_
    refine rel_bind (h.withDefault hvisibility "visibility" rfl (by decide)) fun v v' hv ↦ ?_
    refine rel_bind (h.withDefault hinterfaces "interfaces" rfl (by decide)) fun is is' hi ↦ ?_
    refine rel_bind (h.withDefault hfields "fields" .nil (by decide)) fun fs fs' hf ↦ ?_
    refine rel_bind (h.withDefault hmethods "methods" .nil (by decide)) fun ms ms' hm ↦
      .some fun _ ↦ ?_
    simp only [number, hn, hk, hv, hi, numberAll_congr hf, numberAll_congr hm]

namespace SyntaxTree

theorem ignoresIds_decode (depth : Nat) :
    IgnoresIds (fun t t' ↦ ofTypes t.types = ofTypes t'.types) (decode depth) := by
  cases depth with
  | zero => exact ignoresIds_none
  | succ depth =>
    have htypes := ignoresIds_decodeList TypeDecl.ignoresIds_decode depth
    refine ignoresIds_record fun r r' h ↦ ?_
    refine rel_bind (h.required htypes "types" (by decide)) fun ts ts' ht ↦ .some ?_
    simp only [ofTypes, numberAll_congr ht]

/-- The numbers in a document do not matter. -/
theorem ofJson?_withoutIds (j : Json) : ofJson? j.withoutIds = ofJson? j := by
  have hagree := (ignoresIds_decode nestingLimit).agree j
  unfold ofJson?
  generalize decode nestingLimit j.withoutIds = o at hagree
  generalize decode nestingLimit j = o' at hagree
  cases hagree with
  | some h => rw [Option.map_some, Option.map_some, h]
  | none => rfl

theorem parse_print {types : List TypeDecl} (h : (ofTypes types).toJson.depth ≤ nestingLimit) :
    parse (print (ofTypes types)) = some (ofTypes types) := by
  rw [parse, print, (ofTypes types).plain.parse_pretty, Option.bind_some, ofJson?,
    (ofTypes types).restored nestingLimit h, Option.map_some, ofTypes_types]

theorem parse_eq_of_withoutIds_eq {a b : String}
    (h : (Json.parse a).map withoutIds = (Json.parse b).map withoutIds) : parse a = parse b := by
  have hparse (text : String) : parse text = ((Json.parse text).map withoutIds).bind ofJson? := by
    unfold parse
    cases Json.parse text with
    | none => rfl
    | some j => exact (ofJson?_withoutIds j).symm
  rw [hparse, hparse, h]

/-- What is written for a tree is read back as the tree, and documents that differ in the numbers of
their nodes only are read as the same tree. -/
theorem parse_print_and_withoutIds :
    (∀ types : List TypeDecl, (ofTypes types).toJson.depth ≤ nestingLimit →
      parse (print (ofTypes types)) = some (ofTypes types)) ∧
    ∀ a b : String, (Json.parse a).map withoutIds = (Json.parse b).map withoutIds →
      parse a = parse b :=
  ⟨fun _ ↦ parse_print, fun _ _ ↦ parse_eq_of_withoutIds_eq⟩

/-- A type with a field and its first value. Of the two documents the one has numbers for the type
and for the value, in a node that is written as an object and in one that is written as an array,
and the other has no number for the type and a different one for the value. -/
theorem parse_print_and_withoutIds_field :
    parse (print (ofTypes [{fullName := "Counter", fields :=
        [{name := "start", type := .bool, initializer := some (.literal 0 (.bool true))}]}])) =
      some (ofTypes [{fullName := "Counter", fields :=
        [{name := "start", type := .bool, initializer := some (.literal 0 (.bool true))}]}]) ∧
    parse ((obj [("types", .arr [.obj [("id", .int 7), ("full_name", .str "Counter"),
        ("fields", .arr [.obj [("name", .str "start"), ("ty", .str "Bool"), ("initializer",
          .arr [.int 3, variant "Literal" (variant "Bool" (.bool true))])]])]])]).pretty 0) =
      parse ((obj [("types", .arr [.obj [("full_name", .str "Counter"),
        ("fields", .arr [.obj [("name", .str "start"), ("ty", .str "Bool"), ("initializer",
          .arr [.int 9, variant "Literal" (variant "Bool" (.bool true))])]])]])]).pretty 0) := by
  refine ⟨parse_print_and_withoutIds.1 _ (by decide), parse_print_and_withoutIds.2 _ _ ?_⟩
  rw [Plain.parse_pretty (by simp [variant]), Plain.parse_pretty (by simp [variant])]
  rfl

end SyntaxTree

end Fabric
