import Fabric.Config.Basic

/-!
How many instances a member may have: the bound of the longest start of its name that is
configured. A member that no start matches is entered with a bound of one, marked as a default.
-/

namespace Fabric

structure InstanceCount where
  max : UInt32
  isDefault : Bool
deriving DecidableEq, Repr, Inhabited

/-- The bounds by the starts of the names that they are for. -/
structure InstanceTable where
  counts : Dictionary InstanceCount

namespace InstanceTable

def ofConfig (c : Config) : InstanceTable :=
  ⟨.ofList (c.instanceBounds.map fun b => (b.start, ⟨b.max, false⟩))⟩

def longestStart (name : List Char) :
    List (String × InstanceCount) → Option (String × InstanceCount)
  | [] => none
  | (start, count) :: rest =>
    match longestStart name rest with
    | some found =>
      if start.toList.isPrefixOf name && found.1.length < start.length then some (start, count)
      else some found
    | none => if start.toList.isPrefixOf name then some (start, count) else none

def find? (t : InstanceTable) (name : String) : Option (String × InstanceCount) :=
  longestStart name.toList t.counts.entries

/-- The bound for a name, which is entered as a default if no start matches. -/
def lookup (t : InstanceTable) (name : String) : (String × InstanceCount) × InstanceTable :=
  match t.find? name with
  | some found => (found, t)
  | none =>
    let count : InstanceCount := ⟨1, true⟩
    ((name, count), ⟨t.counts.insert name count⟩)

end InstanceTable

end Fabric
