import Fabric.Json.Basic
import Fabric.Power

/-!
Reading values of a fixed shape out of a document. A record is an object with known keys, or an
array with the fields in their order; a variant is an object with one key, which names it, or the
name alone if it holds nothing.

Decoders of nested shapes take the number of arrays and objects that may still be opened. It is
the bound on the nesting of a document and the measure of the recursion at once.
-/

namespace Fabric.Json

/-- What differs between kinds of documents in the forms of values. -/
structure Dialect where
  /-- What may stand for the content of a variant without content. -/
  isNothing : Json → Bool
  /-- Whether the content of a variant that is a record may be an array. -/
  positionalContent : Bool
  /-- Whether an array may go on after the fields of a record. -/
  surplusItems : Bool

namespace Dialect

def text : Dialect := ⟨fun j => j matches .null, true, false⟩

def value : Dialect := ⟨fun j => j matches .null, false, false⟩

/-- A table of settings: it has no `null`, and an empty container takes its place. -/
def settings : Dialect :=
  ⟨fun j =>
    match j with
    | .arr items => items.isEmpty
    | .obj members => members.isEmpty
    | _ => false, true, true⟩

end Dialect

/-- The fields of a record that are present. -/
structure Record where
  fields : List (String × Json)
  positional : Bool

def repeats (members : List (String × Json)) (name : String) : Bool :=
  1 < (members.filter fun m => m.1 = name).length

/-- A record with the given fields. A field may not be repeated; other keys are passed over. -/
def record (names : List String) : Json → Option Record
  | .obj members =>
    if names.any (repeats members) then none else some ⟨members, false⟩
  | .arr items =>
    if items.length ≤ names.length then some ⟨names.zip items, true⟩ else none
  | _ => none

def closedRecord (dialect : Dialect) (names : List String) : Json → Option Record
  | .obj members =>
    if members.all (fun m => names.contains m.1) then record names (.obj members) else none
  | .arr items =>
    record names (.arr (if dialect.surplusItems then items.take names.length else items))
  | _ => none

/-- The content of a variant that is a record with the given fields. -/
def content (dialect : Dialect) (names : List String) : Json → Option Record
  | .arr items => if dialect.positionalContent then record names (.arr items) else none
  | j => record names j

namespace Record

variable {α : Type}

def get? (r : Record) (name : String) : Option Json :=
  r.fields.lookup name

def required (r : Record) (name : String) (decode : Json → Option α) : Option α :=
  (r.get? name).bind decode

/-- A field that takes a value of its own when it is absent. -/
def withDefault (r : Record) (name : String) (value : α) (decode : Json → Option α) : Option α :=
  match r.get? name with
  | some j => decode j
  | none => some value

end Record

variable {α : Type}

def optional (decode : Json → Option α) : Json → Option (Option α)
  | .null => some none
  | j => (decode j).map some

/-- A field that may be `null`. In an object it may be absent too. -/
def Record.nullable (r : Record) (name : String) (decode : Json → Option α) :
    Option (Option α) :=
  match r.get? name with
  | some j => optional decode j
  | none => if r.positional then none else some none

def asText : Json → Option String
  | .str s => some s
  | _ => none

def asBool : Json → Option Bool
  | .bool b => some b
  | _ => none

def asNat (bound : Nat) : Json → Option Nat
  | .int n => if 0 ≤ n ∧ n < bound then some n.toNat else none
  | _ => none

def asUInt16 (j : Json) : Option UInt16 :=
  (asNat (twoPow 16) j).map UInt16.ofNat

def asUInt32 (j : Json) : Option UInt32 :=
  (asNat (twoPow 32) j).map UInt32.ofNat

def asUInt64 (j : Json) : Option UInt64 :=
  (asNat (twoPow 64) j).map UInt64.ofNat

def asInt64 : Json → Option Int64
  | .int n => if -(twoPow 63 : Int) ≤ n ∧ n < twoPow 63 then some (Int64.ofInt n) else none
  | _ => none

def asList (decode : Json → Option α) : Json → Option (List α)
  | .arr items => items.mapM decode
  | _ => none

def asVariant : Json → Option (String × Json)
  | .obj [(tag, payload)] => some (tag, payload)
  | _ => none

/-- The variant without content that a name denotes, given as the name or as a key of nothing. -/
def asUnit (dialect : Dialect) (names : List (String × α)) : Json → Option α
  | .str tag => names.lookup tag
  | .obj [(tag, payload)] => if dialect.isNothing payload then names.lookup tag else none
  | _ => none

end Fabric.Json
