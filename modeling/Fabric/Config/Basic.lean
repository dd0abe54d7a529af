import Fabric.Dictionary
import Fabric.Frequency

/-!
Settings of a hardware generation, and when they are valid.
-/

namespace Fabric

inductive GenerationMode
  | verbose
  | compact
deriving DecidableEq, Repr, Inhabited

def GenerationMode.name : GenerationMode → String
  | .verbose => "verbose"
  | .compact => "compact"

/-- A bound on the instances of the members whose full names start with a given text. -/
structure InstanceBound where
  start : String
  max : UInt32
deriving DecidableEq, Repr, Inhabited

/-- The schema version that configurations are written in. -/
def schemaVersion : UInt32 := 1

structure Config where
  schemaVersion : UInt32 := Fabric.schemaVersion
  device : String
  enableCaching : Bool := true
  generationMode : GenerationMode := .verbose
  arrayLengths : Dictionary UInt32 := .empty
  instanceBounds : List InstanceBound := []
  maxParallelism : UInt64 := 0
  entryPointStarts : List String := []
  clockFrequency : Option String := none

inductive ConfigError
  | unreadable
  | malformed
  | unsupportedSchema (found : UInt32)
  | missingDevice
  | emptyStart
  | zeroInstances (start : String)
  | zeroLength (array : String)
  | invalidClock (reason : String)
deriving DecidableEq, Repr

namespace ConfigError

def entryMessage (table key reason : String) : String :=
  "invalid " ++ table ++ " entry `" ++ key ++ "`: " ++ reason

def message : ConfigError → String
  | .unreadable => "cannot read the configuration"
  | .malformed => "malformed configuration"
  | .unsupportedSchema found =>
    "unsupported schema_version " ++ toString found.toNat ++ " (this build reads "
      ++ toString schemaVersion.toNat ++ ")"
  | .missingDevice => "`device` must name a target device"
  | .emptyStart => entryMessage "instance_counts" "" "prefix is empty"
  | .zeroInstances start => entryMessage "instance_counts" start "max must be at least 1"
  | .zeroLength array => entryMessage "array_lengths" array "length must be at least 1"
  | .invalidClock reason => "invalid clock_frequency: " ++ reason

end ConfigError

namespace InstanceBound

def validate (b : InstanceBound) : Except ConfigError Unit :=
  if b.start.isEmpty then .error .emptyStart
  else if b.max = 0 then .error (.zeroInstances b.start)
  else .ok ()

end InstanceBound

namespace Config

/-- Checks the settings that have no meaning with every value, in a fixed order. -/
def validate (c : Config) : Except ConfigError Unit := do
  if c.schemaVersion ≠ Fabric.schemaVersion then .error (.unsupportedSchema c.schemaVersion)
  else if (Text.trimChars c.device.toList).isEmpty then .error .missingDevice
  else
    c.instanceBounds.forM InstanceBound.validate
    match c.arrayLengths.entries.find? fun e => e.2 = 0 with
    | some (array, _) => .error (.zeroLength array)
    | none =>
      match c.clockFrequency with
      | none => .ok ()
      | some clock =>
        match Frequency.parse clock with
        | .ok _ => .ok ()
        | .error e => .error (.invalidClock e.message)

def withArrayLength (c : Config) (array : String) (length : UInt32) : Config :=
  { c with arrayLengths := c.arrayLengths.insert array length }

def withInstanceBound (c : Config) (start : String) (max : UInt32) : Config :=
  { c with instanceBounds := c.instanceBounds ++ [⟨start, max⟩] }

end Config

end Fabric
