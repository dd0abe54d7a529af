import Fabric.Config.Basic
import Fabric.Json.Decode
import Fabric.Syntax.Interchange
import Fabric.Toml.Reader

/-!
Reading and writing configurations. Keys that are no settings are refused.
-/

namespace Fabric

open Json

def GenerationMode.names : List (String × GenerationMode) :=
  [("verbose", .verbose), ("compact", .compact)]

def InstanceBound.ofJson? (dialect : Dialect) (j : Json) : Option InstanceBound := do
  let r ← closedRecord dialect ["prefix", "max"] j
  return { start := ← r.required "prefix" asText, max := ← r.required "max" asUInt32 }

def InstanceBound.toJson (b : InstanceBound) : Json :=
  .obj [("prefix", .str b.start), ("max", ofUInt32 b.max)]

def lengthsOfJson? : Json → Option (Dictionary UInt32)
  | .obj members => do
    let entries ← members.mapM fun (name, j) => (asUInt32 j).map fun n => (name, n)
    return .ofList entries
  | _ => none

namespace Config

def fieldNames : List String :=
  ["schema_version", "device", "enable_caching", "generation_mode", "array_lengths",
    "instance_counts", "max_degree_of_parallelism", "hardware_entry_point_prefixes",
    "clock_frequency"]

def ofJson? (dialect : Dialect) (j : Json) : Option Config := do
  let r ← closedRecord dialect fieldNames j
  return {
    schemaVersion := ← r.withDefault "schema_version" Fabric.schemaVersion asUInt32
    device := ← r.required "device" asText
    enableCaching := ← r.withDefault "enable_caching" true asBool
    generationMode := ← r.withDefault "generation_mode" .verbose
      (asUnit dialect GenerationMode.names)
    arrayLengths := ← r.withDefault "array_lengths" .empty lengthsOfJson?
    instanceBounds := ← r.withDefault "instance_counts" [] (asList (InstanceBound.ofJson? dialect))
    maxParallelism := ← r.withDefault "max_degree_of_parallelism" 0 asUInt64
    entryPointStarts := ← r.withDefault "hardware_entry_point_prefixes" [] (asList asText)
    clockFrequency := ← r.withDefault "clock_frequency" none (optional asText) }

def toJson (c : Config) : Json :=
  .obj [("schema_version", ofUInt32 c.schemaVersion), ("device", .str c.device),
    ("enable_caching", .bool c.enableCaching), ("generation_mode", .str c.generationMode.name),
    ("array_lengths", .obj (c.arrayLengths.entries.map fun (name, n) => (name, ofUInt32 n))),
    ("instance_counts", ofList InstanceBound.toJson c.instanceBounds),
    ("max_degree_of_parallelism", ofUInt64 c.maxParallelism),
    ("hardware_entry_point_prefixes", ofList .str c.entryPointStarts),
    ("clock_frequency", ofOption .str c.clockFrequency)]

/-- The configuration that the text of a document holds, if it is valid. -/
def load (text : String) : Except ConfigError Config :=
  match (Toml.parse text).bind (ofJson? .settings) with
  | none => .error .malformed
  | some c => c.validate.map fun _ => c

end Config

end Fabric
