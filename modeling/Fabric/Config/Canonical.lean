import Fabric.Config.Basic
import Fabric.Text.Hex

/-!
The canonical form of a configuration: what the generated hardware depends on, with entries sorted
and overridden entries dropped. Every text is written after its length, so no text can look like
something else.
-/

namespace Fabric

structure CanonicalConfig where
  schemaVersion : UInt32
  device : String
  generationMode : GenerationMode
  clockFrequency : Option String
  arrayLengths : Dictionary UInt32
  instanceBounds : Dictionary UInt32
  entryPointStarts : Dictionary Unit

/-- A clock in whole hertz; a text that is no frequency is kept. -/
def canonicalClock (text : String) : String :=
  match Frequency.parse text with
  | .ok clock => toString (clock.hz.roundWithin (twoPow 64 - 1))
  | .error _ => text

def Config.canonical (c : Config) : CanonicalConfig where
  schemaVersion := c.schemaVersion
  device := c.device
  generationMode := c.generationMode
  clockFrequency := c.clockFrequency.map canonicalClock
  arrayLengths := c.arrayLengths
  instanceBounds := .ofList (c.instanceBounds.map fun b => (b.start, b.max))
  entryPointStarts := .ofList (c.entryPointStarts.map fun s => (s, ()))

namespace CanonicalConfig

def sized (s : String) : String :=
  toString s.utf8ByteSize ++ ":" ++ s

def entryLines (label : String) (entries : Dictionary UInt32) : List String :=
  entries.entries.map fun (name, n) => label ++ " " ++ sized name ++ "=" ++ toString n.toNat

def lines (c : CanonicalConfig) : List String :=
  ["schema_version=" ++ toString c.schemaVersion.toNat, "device=" ++ sized c.device,
    "generation_mode=" ++ c.generationMode.name]
    ++ (c.clockFrequency.toList.map fun clock => "clock_frequency=" ++ sized clock)
    ++ entryLines "array_length" c.arrayLengths
    ++ entryLines "instance_count" c.instanceBounds
    ++ c.entryPointStarts.keys.map fun start => "entry_point_prefix " ++ sized start

def print (c : CanonicalConfig) : String :=
  String.join (c.lines.map fun line => line ++ "\n")

end CanonicalConfig

/-- The text that stands for a configuration in the identity of a generation. -/
def Config.canonicalText (c : Config) : String :=
  c.canonical.print

end Fabric
