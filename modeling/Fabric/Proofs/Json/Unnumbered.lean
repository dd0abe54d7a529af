import Fabric.Json.Decode
import Mathlib.Data.List.Forall2
import Mathlib.Data.Option.Basic

namespace Fabric.Json

def nodeKeys : List String := ["kind", "name", "full_name"]

def dropId (members : List (String × Json)) : List (String × Json) :=
  match members.filter fun m ↦ m.1 = "id" with
  | [(_, id)] =>
    if (members.any fun m ↦ nodeKeys.contains m.1) ∧ (asUInt32 id).isSome then
      members.filter fun m ↦ m.1 ≠ "id"
    else members
  | _ => members

def isKind : Json → Bool
  | .str _ | .obj _ => true
  | _ => false

/-- The items of an array with zero for its number, if it is a node that is written as an array: a
valid number before a kind or a name. -/
def clearId : List Json → List Json
  | id :: kind :: rest =>
    if isKind kind ∧ (asUInt32 id).isSome then .int 0 :: kind :: rest else id :: kind :: rest
  | items => items

mutual

/-- A document without the numbers of its nodes. A node that is written as an array has zero for
its number, since the number cannot be left out there. -/
def withoutIds : Json → Json
  | .arr items => .arr (clearId (withoutIdsItems items))
  | .obj members => .obj (dropId (withoutIdsMembers members))
  | j => j

def withoutIdsItems : List Json → List Json
  | [] => []
  | j :: js => j.withoutIds :: withoutIdsItems js

def withoutIdsMembers : List (String × Json) → List (String × Json)
  | [] => []
  | (key, j) :: ms => (key, j.withoutIds) :: withoutIdsMembers ms

end

def mapMembers (f : Json → Json) (members : List (String × Json)) : List (String × Json) :=
  members.map fun m ↦ (m.1, f m.2)

theorem withoutIdsItems_eq (items : List Json) : withoutIdsItems items = items.map withoutIds := by
  induction items with
  | nil => rfl
  | cons j js ih => rw [withoutIdsItems, ih, List.map_cons]

theorem withoutIdsMembers_eq (members : List (String × Json)) :
    withoutIdsMembers members = mapMembers withoutIds members := by
  induction members with
  | nil => rfl
  | cons m ms ih =>
    rw [withoutIdsMembers, ih]
    rfl

theorem withoutIds_arr (items : List Json) :
    (arr items).withoutIds = .arr (clearId (items.map withoutIds)) := by
  rw [withoutIds, withoutIdsItems_eq]

theorem withoutIds_obj (members : List (String × Json)) :
    (obj members).withoutIds = .obj (dropId (mapMembers withoutIds members)) := by
  rw [withoutIds, withoutIdsMembers_eq]

theorem dropId_cases (members : List (String × Json)) :
    dropId members = members ∨
      ((∃ m ∈ members, m.1 ∈ nodeKeys) ∧ ∃ id, (asUInt32 id).isSome ∧
        (members.filter fun m ↦ m.1 = "id") = [("id", id)] ∧
        dropId members = members.filter fun m ↦ m.1 ≠ "id") := by
  unfold dropId
  split
  next key id hid =>
    split
    next h =>
      obtain ⟨hnode, hvalid⟩ := h
      obtain rfl : key = "id" := by
        have hmem : (key, id) ∈ members.filter fun m ↦ m.1 = "id" := by
          rw [hid]
          exact List.mem_cons_self
        simpa using (List.mem_filter.1 hmem).2
      exact .inr ⟨by simpa using hnode, id, hvalid, hid, rfl⟩
    next => exact .inl rfl
  next => exact .inl rfl

theorem clearId_cases (items : List Json) :
    clearId items = items ∨
      ∃ n kind rest, items = .int n :: kind :: rest ∧ isKind kind ∧ (asUInt32 (.int n)).isSome ∧
        clearId items = .int 0 :: kind :: rest := by
  unfold clearId
  split
  next id kind rest =>
    by_cases h : isKind kind ∧ (asUInt32 id).isSome
    · rw [if_pos h]
      cases id with
      | int n => exact .inr ⟨n, kind, rest, rfl, h.1, h.2, rfl⟩
      | _ => cases h.2
    · exact .inl (if_neg h)
  next => exact .inl rfl

@[simp]
theorem asUInt16_withoutIds (j : Json) : asUInt16 j.withoutIds = asUInt16 j := by
  cases j <;> rfl

@[simp]
theorem asUInt32_withoutIds (j : Json) : asUInt32 j.withoutIds = asUInt32 j := by
  cases j <;> rfl

@[simp]
theorem asInt64_withoutIds (j : Json) : asInt64 j.withoutIds = asInt64 j := by
  cases j <;> rfl

@[simp]
theorem isKind_withoutIds (j : Json) : isKind j.withoutIds = isKind j := by
  cases j <;> rfl

theorem asBool_of_isKind (j : Json) (h : isKind j) : asBool j = none := by
  cases j with
  | bool b => cases h
  | _ => rfl

theorem asUInt16_of_isKind (j : Json) (h : isKind j) : asUInt16 j = none := by
  cases j with
  | int n => cases h
  | _ => rfl

/-- A field of a record in a document without numbers and the same field before: numbers that came
first may differ. -/
inductive FieldAlike : Option Json → Option Json → Prop
  | same (j : Option Json) : FieldAlike (j.map withoutIds) j
  | number {m n : Int} : (asUInt32 (.int m)).isSome → (asUInt32 (.int n)).isSome →
      FieldAlike (some (.int m)) (some (.int n))

inductive IdAlike : Option Json → Option Json → Prop
  | field {a b : Option Json} : FieldAlike a b → IdAlike a b
  | absent {j : Json} : (asUInt32 j).isSome → IdAlike none (some j)

structure RecordAlike (names : List String) (r r' : Record) : Prop where
  positional : r.positional = r'.positional
  fields : ∀ name ≠ "id", FieldAlike (r.get? name) (r'.get? name)
  id : IdAlike (r.get? "id") (r'.get? "id")
  /-- A number differs only in front of a kind or a name. -/
  second : (∀ name ≠ "id", r.get? name = (r'.get? name).map withoutIds) ∨
    ∀ first second rest, names = first :: second :: rest → first ≠ second →
      ∃ kind, isKind kind ∧ r'.get? second = some kind ∧ r.get? second = some kind.withoutIds

theorem lookup_mapMembers (f : Json → Json) (members : List (String × Json)) (name : String) :
    (mapMembers f members).lookup name = (members.lookup name).map f := by
  induction members with
  | nil => rfl
  | cons m ms ih =>
    rw [mapMembers, List.map_cons, List.lookup_cons, List.lookup_cons, ← mapMembers, ih]
    split <;> rfl

theorem repeats_mapMembers (f : Json → Json) (members : List (String × Json)) (name : String) :
    repeats (mapMembers f members) name = repeats members name := by
  rw [repeats, repeats, mapMembers, List.filter_map, List.length_map]
  rfl

theorem lookup_filter_ne {members : List (String × Json)} {name key : String} (h : name ≠ key) :
    (members.filter fun m ↦ m.1 ≠ key).lookup name = members.lookup name := by
  induction members with
  | nil => rfl
  | cons m ms ih =>
    by_cases hm : m.1 = key
    · rw [List.filter_cons_of_neg (by simpa using hm), List.lookup_cons, ih,
        beq_false_of_ne (hm ▸ h)]
    · rw [List.filter_cons_of_pos (by simpa using hm), List.lookup_cons, List.lookup_cons, ih]

theorem repeats_filter_ne {members : List (String × Json)} {name key : String} (h : name ≠ key) :
    repeats (members.filter fun m ↦ m.1 ≠ key) name = repeats members name := by
  rw [repeats, repeats, List.filter_filter]
  congr 3
  refine List.filter_congr fun m _ ↦ ?_
  by_cases hm : m.1 = name
  · simp [hm, h]
  · simp [hm]

theorem repeats_dropId (members : List (String × Json)) (name : String) :
    repeats (dropId members) name = repeats members name := by
  rcases dropId_cases members with heq | ⟨-, id, -, hid, heq⟩
  · rw [heq]
  · rw [heq]
    by_cases hname : name = "id"
    · rw [hname, repeats, repeats, hid, List.filter_filter]
      simp
    · exact repeats_filter_ne hname

theorem lookup_of_filter_eq {members : List (String × Json)} {key : String} {j : Json}
    (h : (members.filter fun m ↦ m.1 = key) = [(key, j)]) : members.lookup key = some j := by
  induction members with
  | nil => cases h
  | cons m ms ih =>
    rw [List.lookup_cons]
    by_cases hm : m.1 = key
    · rw [List.filter_cons_of_pos (by simpa using hm)] at h
      rw [beq_iff_eq.2 hm.symm, (List.cons.inj h).1]
    · rw [List.filter_cons_of_neg (by simpa using hm)] at h
      rw [beq_false_of_ne (Ne.symm hm), ih h]

theorem zip_map_eq (f : Json → Json) (names : List String) (items : List Json) :
    names.zip (items.map f) = mapMembers f (names.zip items) := by
  rw [List.zip_map_right]
  rfl

theorem length_clearId (items : List Json) : (clearId items).length = items.length := by
  rcases clearId_cases items with heq | ⟨n, kind, rest, rfl, -, -, heq⟩
  · rw [heq]
  · rw [heq]
    rfl

theorem recordAlike_obj (names : List String) (members : List (String × Json)) :
    RecordAlike names ⟨dropId (mapMembers withoutIds members), false⟩ ⟨members, false⟩ := by
  have hfields : ∀ name ≠ "id", (dropId (mapMembers withoutIds members)).lookup name =
      (members.lookup name).map withoutIds := by
    intro name hname
    rw [← lookup_mapMembers]
    rcases dropId_cases (mapMembers withoutIds members) with heq | ⟨-, id, -, -, heq⟩
    · rw [heq]
    · rw [heq, lookup_filter_ne hname]
  refine ⟨rfl, fun name hname ↦ ?_, ?_, .inl hfields⟩
  · rw [Record.get?, hfields name hname]
    exact .same _
  · rw [Record.get?, Record.get?]
    dsimp only
    rcases dropId_cases (mapMembers withoutIds members) with heq | ⟨-, id, hvalid, hid, heq⟩
    · rw [heq, lookup_mapMembers]
      exact .field (.same _)
    · have hnone : (dropId (mapMembers withoutIds members)).lookup "id" = none := by
        rw [heq, List.lookup_eq_none_iff]
        intro m hm
        have hne := (List.mem_filter.1 hm).2
        simpa using Ne.symm (by simpa using hne : m.1 ≠ "id")
      have hlookup := lookup_of_filter_eq hid
      rw [lookup_mapMembers, Option.map_eq_some_iff] at hlookup
      obtain ⟨j, hj, rfl⟩ := hlookup
      rw [hnone, hj]
      rw [asUInt32_withoutIds] at hvalid
      exact .absent hvalid

theorem eq_int_of_withoutIds {j : Json} {n : Int} (h : j.withoutIds = .int n) : j = .int n := by
  cases j with
  | int m => exact h
  | _ => cases h

theorem recordAlike_arr {names : List String} {items : List Json}
    (hlen : items.length ≤ names.length) :
    RecordAlike names ⟨names.zip (clearId (items.map withoutIds)), true⟩
      ⟨names.zip items, true⟩ := by
  rcases clearId_cases (items.map withoutIds) with heq | ⟨n, kind, rest, hitems, hkind, hvalid, heq⟩
  · have hget (name : String) :
        Record.get? ⟨names.zip (clearId (items.map withoutIds)), true⟩ name =
          (Record.get? ⟨names.zip items, true⟩ name).map withoutIds := by
      rw [Record.get?, Record.get?, heq, zip_map_eq, lookup_mapMembers]
    refine ⟨rfl, fun name _ ↦ ?_, ?_, .inl fun name _ ↦ hget name⟩
    · rw [hget]
      exact .same _
    · rw [hget]
      exact .field (.same _)
  · obtain ⟨a, items, rfl, ha, hitems⟩ := List.map_eq_cons_iff.1 hitems
    obtain ⟨b, items, rfl, rfl, rfl⟩ := List.map_eq_cons_iff.1 hitems
    obtain rfl := eq_int_of_withoutIds ha
    match names, hlen with
    | first :: second :: names, _ =>
      rw [isKind_withoutIds] at hkind
      have hget (name : String) : FieldAlike
          (Record.get? ⟨(first :: second :: names).zip
            (clearId ((.int n :: b :: items).map withoutIds)), true⟩ name)
          (Record.get? ⟨(first :: second :: names).zip (.int n :: b :: items), true⟩ name) := by
        have hzero : (asUInt32 (.int 0)).isSome := rfl
        have htail := zip_map_eq withoutIds (second :: names) (b :: items)
        rw [List.map_cons] at htail
        rw [heq, Record.get?, Record.get?, List.zip_cons_cons, List.zip_cons_cons (a := first)]
        dsimp only
        rw [List.lookup_cons, List.lookup_cons, htail, lookup_mapMembers]
        by_cases hname : name = first
        · rw [beq_iff_eq.2 hname]
          exact .number hzero hvalid
        · rw [beq_false_of_ne hname]
          exact .same _
      refine ⟨rfl, fun name _ ↦ hget name, .field (hget "id"), .inr ?_⟩
      rintro _ _ _ ⟨⟩ hne
      refine ⟨b, hkind, ?_, ?_⟩
      · simp [Record.get?, List.lookup_cons, beq_false_of_ne (Ne.symm hne)]
      · rw [heq]
        simp [Record.get?, List.lookup_cons, beq_false_of_ne (Ne.symm hne)]

/-- A record is there without the numbers whenever it was there with them. -/
theorem record_withoutIds (names : List String) (j : Json) :
    Option.Rel (RecordAlike names) (record names j.withoutIds) (record names j) := by
  cases j with
  | obj members =>
    have hrepeats : repeats (dropId (mapMembers withoutIds members)) = repeats members := by
      funext name
      rw [repeats_dropId, repeats_mapMembers]
    rw [withoutIds_obj]
    unfold record
    dsimp only
    rw [hrepeats]
    split
    next => exact .none
    next => exact .some (recordAlike_obj names members)
  | arr items =>
    rw [withoutIds_arr]
    unfold record
    dsimp only
    rw [length_clearId, List.length_map]
    split
    next hlen => exact .some (recordAlike_arr hlen)
    next => exact .none
  | _ => exact .none

/-- A decoder of documents that are no numbers, with related values for a document and for the
document without the numbers of its nodes. -/
structure IgnoresIds {α : Type} (R : α → α → Prop) (decode : Json → Option α) : Prop where
  agree (j : Json) : Option.Rel R (decode j.withoutIds) (decode j)
  number (n : Int) : decode (.int n) = none

variable {α β : Type} {R : α → α → Prop} {S : β → β → Prop}

theorem rel_bind {o o' : Option α} {f f' : α → Option β} (h : Option.Rel R o o')
    (hf : ∀ a a', R a a' → Option.Rel S (f a) (f' a')) : Option.Rel S (o >>= f) (o' >>= f') := by
  cases h with
  | some h => exact hf _ _ h
  | none => exact .none

theorem rel_of_eq {o o' : Option α} (h : o = o') : Option.Rel Eq o o' := by
  subst h
  cases o with
  | none => exact .none
  | some a => exact .some rfl

theorem eq_of_rel {o o' : Option α} (h : Option.Rel Eq o o') : o = o' := by
  cases h with
  | some h => rw [h]
  | none => rfl

theorem rel_eq : Option.Rel (Eq : α → α → Prop) = Eq := by
  funext o o'
  exact propext ⟨eq_of_rel, rel_of_eq⟩

theorem ignoresIds_none : IgnoresIds R fun _ ↦ none where
  agree _ := .none
  number _ := rfl

theorem ignoresIds_asText : IgnoresIds Eq asText where
  agree j := rel_of_eq (by cases j <;> rfl)
  number _ := rfl

theorem ignoresIds_asBool : IgnoresIds Eq asBool where
  agree j := rel_of_eq (by cases j <;> rfl)
  number _ := rfl

namespace IgnoresIds

variable {decode : Json → Option α}

theorem numbers (h : IgnoresIds R decode) (m n : Int) :
    Option.Rel R (decode (.int m)) (decode (.int n)) := by
  rw [h.number, h.number]
  exact .none

theorem mapM (h : IgnoresIds R decode) (items : List Json) :
    Option.Rel (List.Forall₂ R) ((items.map withoutIds).mapM decode) (items.mapM decode) := by
  induction items with
  | nil => exact .some .nil
  | cons j js ih =>
    rw [List.map_cons, List.mapM_cons, List.mapM_cons]
    exact rel_bind (h.agree j) fun a a' ha ↦ rel_bind ih fun as as' has ↦ .some (.cons ha has)

theorem list (h : IgnoresIds R decode) : IgnoresIds (List.Forall₂ R) (asList decode) where
  agree j := by
    cases j with
    | arr items =>
      rw [withoutIds_arr]
      change Option.Rel _ ((clearId (items.map withoutIds)).mapM decode) (items.mapM decode)
      rcases clearId_cases (items.map withoutIds) with heq | ⟨n, kind, rest, hitems, -, -, heq⟩
      · rw [heq]
        exact h.mapM items
      · -- a list that starts with a number is decoded neither way
        obtain ⟨a, items, rfl, ha, -⟩ := List.map_eq_cons_iff.1 hitems
        obtain rfl := eq_int_of_withoutIds ha
        have hnone (m : Int) (js : List Json) : (Json.int m :: js).mapM decode = none := by
          rw [List.mapM_cons, h.number]
          rfl
        rw [heq, hnone, hnone]
        exact .none
    | _ => exact .none
  number _ := rfl

theorem optional (h : IgnoresIds R decode) :
    IgnoresIds (Option.Rel R) (Json.optional decode) where
  agree j := by
    have hmap {k k' : Json} (hk : Option.Rel R (decode k) (decode k')) :
        Option.Rel (Option.Rel R) ((decode k).map some) ((decode k').map some) := by
      revert hk
      generalize decode k = o
      generalize decode k' = o'
      rintro (hk | -)
      · exact .some (.some hk)
      · exact .none
    cases j with
    | null => exact .some .none
    | arr items => exact hmap (withoutIds_arr items ▸ h.agree (.arr items))
    | obj members => exact hmap (withoutIds_obj members ▸ h.agree (.obj members))
    | _ => exact hmap (h.agree _)
  number n := by
    rw [Json.optional, h.number]
    · rfl
    · nofun

theorem optional_eq (h : IgnoresIds Eq decode) : IgnoresIds Eq (Json.optional decode) := by
  have hoptional := h.optional
  rwa [rel_eq] at hoptional

end IgnoresIds

/-- What is made of a field that is no number is related if what is made of its document is. -/
theorem FieldAlike.bind {a b : Option Json} (h : FieldAlike a b) {f f' : Json → Option β}
    (hpresent : ∀ j, Option.Rel S (f j.withoutIds) (f' j))
    (hnumber : ∀ m n, Option.Rel S (f (.int m)) (f' (.int n))) :
    Option.Rel S (a >>= f) (b >>= f') := by
  cases h with
  | same =>
    cases b with
    | none => exact .none
    | some j => exact hpresent j
  | number => exact hnumber _ _

namespace RecordAlike

variable {names : List String} {r r' : Record} {decode : Json → Option α}

theorem required (h : RecordAlike names r r') (hdecode : IgnoresIds R decode) (name : String)
    (hname : name ≠ "id") :
    Option.Rel R (r.required name decode) (r'.required name decode) :=
  (h.fields name hname).bind hdecode.agree hdecode.numbers

theorem withDefault (h : RecordAlike names r r') (hdecode : IgnoresIds R decode) (name : String)
    {value : α} (hvalue : R value value) (hname : name ≠ "id") :
    Option.Rel R (r.withDefault name value decode) (r'.withDefault name value decode) := by
  unfold Record.withDefault
  have hfield := h.fields name hname
  generalize r.get? name = a at hfield
  generalize r'.get? name = b at hfield
  cases hfield with
  | same =>
    cases b with
    | none => exact .some hvalue
    | some j => exact hdecode.agree j
  | number => exact hdecode.numbers _ _

theorem nullable (h : RecordAlike names r r') (hdecode : IgnoresIds R decode) (name : String)
    (hname : name ≠ "id") :
    Option.Rel (Option.Rel R) (r.nullable name decode) (r'.nullable name decode) := by
  unfold Record.nullable
  rw [h.positional]
  have hfield := h.fields name hname
  generalize r.get? name = a at hfield
  generalize r'.get? name = b at hfield
  cases hfield with
  | same =>
    cases b with
    | none =>
      rw [Option.map_none]
      dsimp only
      split
      · exact .none
      · exact .some .none
    | some j => exact hdecode.optional.agree j
  | number => exact hdecode.optional.numbers _ _

theorem required_eq (h : RecordAlike names r r') (hdecode : IgnoresIds Eq decode) (name : String)
    (hname : name ≠ "id") : r.required name decode = r'.required name decode :=
  eq_of_rel (h.required hdecode name hname)

theorem withDefault_eq (h : RecordAlike names r r') (hdecode : IgnoresIds Eq decode)
    (name : String) (value : α) (hname : name ≠ "id") :
    r.withDefault name value decode = r'.withDefault name value decode :=
  eq_of_rel (h.withDefault hdecode name rfl hname)

theorem required_eq_of_same {name : String}
    (h : r.get? name = (r'.get? name).map withoutIds)
    (hdecode : ∀ j : Json, decode j.withoutIds = decode j) :
    r.required name decode = r'.required name decode := by
  rw [Record.required, Record.required, h]
  cases r'.get? name with
  | none => rfl
  | some j => exact hdecode j

/-- A field that differs is a number before a kind or a name, and if those are no values of the
second field, the record is not decoded. -/
theorem same_or_none {first second : String} (h : RecordAlike (first :: second :: names) r r')
    (hne : first ≠ second) (hdecode : ∀ kind, isKind kind → decode kind = none) :
    (∀ name ≠ "id", r.get? name = (r'.get? name).map withoutIds) ∨
      r.required second decode = none ∧ r'.required second decode = none := by
  refine h.second.imp_right fun hsecond ↦ ?_
  obtain ⟨kind, hkind, hget', hget⟩ := hsecond first second names rfl hne
  rw [Record.required, Record.required, hget, hget']
  exact ⟨hdecode _ (by rwa [isKind_withoutIds]), hdecode _ hkind⟩

/-- The number of a node is there, or it is given, in both records or in neither. -/
theorem idField (h : RecordAlike names r r') :
    Option.Rel (fun _ _ ↦ True) (r.withDefault "id" 0 asUInt32)
      (r'.withDefault "id" 0 asUInt32) := by
  have hvalid {j k : Json} (heq : (asUInt32 j).isSome = (asUInt32 k).isSome) :
      Option.Rel (fun _ _ ↦ True) (asUInt32 j) (asUInt32 k) := by
    cases hj : asUInt32 j <;> cases hk : asUInt32 k <;> rw [hj, hk] at heq
    · exact .none
    · cases heq
    · cases heq
    · exact .some trivial
  unfold Record.withDefault
  have hid := h.id
  revert hid
  generalize r.get? "id" = a
  generalize r'.get? "id" = b
  rintro (⟨- | ⟨hm, hn⟩⟩ | hj)
  · cases b with
    | none => exact .some trivial
    | some j => exact hvalid (by rw [asUInt32_withoutIds])
  · exact hvalid (hm.trans hn.symm)
  · obtain ⟨n, hn⟩ := Option.isSome_iff_exists.1 hj
    dsimp only
    rw [hn]
    exact .some trivial

end RecordAlike

theorem ignoresIds_record {names : List String} {f : Record → Option β}
    (h : ∀ r r', RecordAlike names r r' → Option.Rel S (f r) (f r')) :
    IgnoresIds S fun j ↦ record names j >>= f where
  agree j := rel_bind (record_withoutIds names j) h
  number _ := rfl

theorem forall_nodeKeys {p : String → Prop} :
    (∀ key ∈ nodeKeys, p key) ↔ p "kind" ∧ p "name" ∧ p "full_name" := by
  simp [nodeKeys]

/-- A variant has a key that names it, which no node has. -/
theorem rel_variant {f f' : String × Json → Option β}
    (hnode : ∀ key ∈ nodeKeys, ∀ payload, f (key, payload) = none)
    (hf : ∀ tag payload, Option.Rel S (f (tag, payload.withoutIds)) (f' (tag, payload)))
    (j : Json) :
    Option.Rel S (asVariant j.withoutIds >>= f) (asVariant j >>= f') := by
  cases j with
  | obj members =>
    rw [withoutIds_obj]
    rcases dropId_cases (mapMembers withoutIds members) with heq | ⟨⟨m, hm, hkey⟩, id, -, hid, heq⟩
    · rw [heq]
      match members with
      | [] => exact .none
      | [(tag, payload)] => exact hf tag payload
      | _ :: _ :: _ => exact .none
    · rw [heq]
      have hne : m.1 ≠ "id" := by
        rintro hm
        rw [hm] at hkey
        revert hkey
        decide
      have hleft : m ∈ (mapMembers withoutIds members).filter fun m ↦ m.1 ≠ "id" :=
        List.mem_filter.2 ⟨hm, by simpa using hne⟩
      have hnone : (asVariant (.obj ((mapMembers withoutIds members).filter fun m ↦ m.1 ≠ "id")) >>=
          f) = none := by
        revert hleft
        generalize (mapMembers withoutIds members).filter (fun m ↦ m.1 ≠ "id") = left
        intro hleft
        match left with
        | [] => rfl
        | [(tag, payload)] =>
          obtain rfl := List.mem_singleton.1 hleft
          exact hnode _ hkey payload
        | _ :: _ :: _ => rfl
      rw [hnone]
      match members, hm, hid with
      | [], _, _ => exact .none
      | [(tag, payload)], hm, hid =>
        -- the only key would be the number's and the node's at once
        obtain rfl := List.mem_singleton.1 hm
        simp [mapMembers, hne] at hid
      | _ :: _ :: _, _, _ => exact .none
  | _ => exact .none

theorem ignoresIds_variant {f : String × Json → Option β}
    (hnode : ∀ key ∈ nodeKeys, ∀ payload, f (key, payload) = none)
    (hf : ∀ tag payload, Option.Rel S (f (tag, payload.withoutIds)) (f (tag, payload))) :
    IgnoresIds S fun j ↦ asVariant j >>= f where
  agree := rel_variant hnode hf
  number _ := rfl

end Fabric.Json
