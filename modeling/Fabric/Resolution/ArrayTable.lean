import Fabric.Config.Basic
import Fabric.Syntax.Arithmetic
import Fabric.Syntax.Index

/-!
The lengths of arrays, by the names of the variables, fields and results that hold them. A
configured length stands against every inferred one; two inferred lengths have to agree.
-/

namespace Fabric

def memberArrayKey (member name : String) : String :=
  member ++ "::" ++ name

def returnArrayKey (member : String) : String :=
  member ++ "::return"

def fieldArrayKey (type field : String) : String :=
  type ++ "::" ++ field

inductive LengthSource
  | configured
  | inferred
deriving DecidableEq, Repr

structure ArrayLength where
  length : UInt32
  source : LengthSource
deriving DecidableEq, Repr

structure ArrayTable where
  lengths : Dictionary ArrayLength

inductive ResolveError
  | unresolvedLength (array : String)
  | conflictingLength (array : String) (first second : UInt32)
  | index (cause : IndexError)
  | fault (cause : Fault)
deriving DecidableEq, Repr

def ResolveError.message : ResolveError → String
  | .unresolvedLength array =>
    "cannot determine the length of array `" ++ array
      ++ "`; allocate it with a constant length or add an `array_lengths` entry for it"
  | .conflictingLength array first second =>
    "array `" ++ array ++ "` is allocated with length " ++ toString first.toNat
      ++ " and with length " ++ toString second.toNat
  | .index cause => cause.message
  | .fault cause => cause.message

namespace ArrayTable

def ofConfig (c : Config) : ArrayTable :=
  ⟨c.arrayLengths.mapValues fun length => ⟨length, .configured⟩⟩

def entry? (t : ArrayTable) (array : String) : Option ArrayLength :=
  t.lengths.get? array

def get? (t : ArrayTable) (array : String) : Option UInt32 :=
  (t.entry? array).map ArrayLength.length

def require (t : ArrayTable) (array : String) : Except ResolveError UInt32 :=
  match t.get? array with
  | some length => .ok length
  | none => .error (.unresolvedLength array)

/-- Enters an inferred length; the table is given back if that adds an entry. -/
def record (t : ArrayTable) (array : String) (length : UInt32) :
    Except ResolveError (Option ArrayTable) :=
  match t.entry? array with
  | none => .ok (some ⟨t.lengths.insert array ⟨length, .inferred⟩⟩)
  | some existing =>
    if existing.source = .configured ∨ existing.length = length then .ok none
    else .error (.conflictingLength array existing.length length)

/-- Enters lengths one after another up to the first conflict; what was entered before it stays. -/
def recordAll : List (String × UInt32) → ArrayTable → Except ResolveError Nat × ArrayTable
  | [], t => (.ok 0, t)
  | (array, length) :: rest, t =>
    match t.record array length with
    | .error e => (.error e, t)
    | .ok none => recordAll rest t
    | .ok (some t') =>
      let (added, t'') := recordAll rest t'
      (added.map (· + 1), t'')

end ArrayTable

end Fabric
