import Fabric.Cache.ReadThrough
import Fabric.CommandLine.Options
import Fabric.Config.Interchange
import Fabric.Decimal.Printer
import Fabric.Hardware.Interchange
import Fabric.Syntax.Interchange
import Fabric.Text.Escapes

/-!
The command: it makes hardware from the files that its arguments name and writes the results into a
folder, or lists the devices, or shows its help.
-/

namespace Fabric.CommandLine

/-- What a switch, an option or a subcommand is for. -/
structure Described where
  name : String
  purpose : String

def padded (width : Nat) (s : String) : String :=
  s ++ String.ofList (List.replicate (width - s.length) ' ')

def describedLines (title : String) (items : List Described) : List String :=
  let width := (items.map fun i => i.name.length).foldl max 0
  (title ++ ":") :: items.map fun i => "  " ++ padded width i.name ++ "  " ++ i.purpose

def quietSwitch : Described := ⟨"-q, --quiet", "Suppress all output except errors"⟩

def verboseSwitch : Described := ⟨"-v, --verbose", "Enable verbose (debug-level) output"⟩

def helpSwitch : Described := ⟨"-h, --help", "Print help"⟩

def generatePurpose : String := "Generate hardware from a syntax tree"

def devicesPurpose : String := "List supported devices"

def helpPurpose : String := "Print this message or the help of the given subcommand(s)"

def Topic.lines : Topic → List String
  | .overview =>
    ["Silica hardware generator", "", "Usage: silica [OPTIONS] <COMMAND>", ""]
      ++ describedLines "Commands" [⟨"generate", generatePurpose⟩, ⟨"devices", devicesPurpose⟩,
        ⟨"help", helpPurpose⟩]
      ++ [""]
      ++ describedLines "Options" [quietSwitch, verboseSwitch, helpSwitch,
        ⟨"-V, --version", "Print version"⟩]
  | .generate =>
    [generatePurpose, "", "Usage: silica generate [OPTIONS] --tree <TREE>", ""]
      ++ describedLines "Options" [quietSwitch,
        ⟨"    --tree <TREE>", "Syntax tree in JSON form"⟩,
        ⟨"    --config <CONFIG>",
          "Configuration file (defaults to `silica.toml` in the current directory)"⟩,
        verboseSwitch,
        ⟨"    --out <OUT>", "Output directory [default: hardware]"⟩,
        ⟨"    --cache-dir <CACHE_DIR>", "Directory for cached hardware descriptions"⟩,
        helpSwitch]
  | .devices =>
    [devicesPurpose, "", "Usage: silica devices [OPTIONS]", ""]
      ++ describedLines "Options" [quietSwitch, verboseSwitch, helpSwitch]
  | .help =>
    [helpPurpose, "", "Usage: silica help [COMMAND]...", ""]
      ++ describedLines "Arguments" [⟨"[COMMAND]...", "Print help for the subcommand(s)"⟩]

def textOfBytes (bytes : List UInt8) : Option String :=
  String.fromUTF8? ⟨bytes.toArray⟩

/-- What a run of the command shows: its exit code, and what it prints as output and as messages. -/
structure Outcome where
  code : UInt32
  output : String
  messages : String
deriving DecidableEq, Repr

namespace Outcome

def success (output messages : String) : Outcome := ⟨0, output, messages⟩

def failure (reason : String) : Outcome := ⟨1, "", "error: " ++ reason ++ "\n"⟩

/-- A message about a program that cannot be made into hardware. Further lines of it are indented,
and control sequences in it are left out. A fault of arithmetic ends the command at once. -/
def rejected : SynthesisError → Outcome
  | .fault cause => ⟨101, "", cause.message ++ "\n"⟩
  | e =>
    let text := Text.joinWith "\n    " (Text.split '\n' e.message)
    let entry := "[ERROR silica::generate] [" ++ e.code ++ "] " ++ text ++ "\n"
    ⟨1, "", (textOfBytes (Text.withoutEscapes (Text.utf8 entry))).getD ""⟩

end Outcome

def unlines (lines : List String) : String :=
  lines.foldl (fun text line => text ++ line ++ "\n") ""

def configFile : String := "silica.toml"

def sourceFile : String := "hardware.vhd"

def memberIdsFile : String := "member_ids.json"

def manifestFile : String := "manifest.json"

section

variable {m : Type → Type} [Monad m] (s : Storage m)

def readText (path : String) : m (Option String) := do
  match ← s.read path with
  | .content bytes => return textOfBytes bytes
  | _ => return none

/-- Writes files into a folder one after another, as long as that succeeds. -/
def writeAll (folder : String) : List (String × String) → m Bool
  | [] => return true
  | (name, text) :: rest => do
    if ← s.write (inFolder folder name) (Text.utf8 text) then writeAll folder rest
    else return false

def outputs (d : Description) : List (String × String) :=
  [(sourceFile, d.source), (memberIdsFile, d.manifest.memberIds.toJson.pretty 0),
    (manifestFile, d.manifest.print)]

def writeOutputs (folder : String) (d : Description) : m Bool := do
  if ← s.makeFolder folder then writeAll s folder (outputs d) else return false

/-- The configuration and the tree that the options name. -/
def readInputs (o : GenerateOptions) : m (Except String (Config × SyntaxTree)) := do
  match ← readText s (o.config.getD configFile) with
  | none => return .error ConfigError.unreadable.message
  | some configText =>
    match Config.load configText with
    | .error e => return .error e.message
    | .ok config =>
      match ← readText s o.tree with
      | none => return .error "cannot read the syntax tree"
      | some treeText =>
        match SyntaxTree.parse treeText with
        | none => return .error "malformed syntax tree"
        | some tree => return .ok (config, tree)

def generate (quiet : Bool) (o : GenerateOptions) : m Outcome := do
  match ← readInputs s o with
  | .error reason => return .failure reason
  | .ok (config, tree) =>
    -- The only request of its cache is not in the way of another one.
    let cache := o.cacheFolder.map fun folder => (CacheStore.files s folder).lead
    match ← tree.synthesizeThrough cache .single config false with
    | .error e => return .rejected e
    | .ok d =>
      if ← writeOutputs s o.out d then
        let finished := "    Finished " ++ inFolder o.out sourceFile ++ " ("
          ++ String.ofList (d.identity.toList.take 16) ++ ")\n"
        return .success "" (if quiet then "" else finished)
      else return .failure "cannot write the hardware"

end

def leftPadded (width : Nat) (s : String) : String :=
  String.ofList (List.replicate (width - s.length) ' ') ++ s

def deviceLine (d : CatalogDevice) : String :=
  padded 16 d.device.name ++ " " ++ leftPadded 7 (Decimal.fixed 1 (d.device.clock.hz / 1000000))
    ++ " MHz  " ++ padded 12 (Text.joinWith ", " d.device.channels) ++ " "
    ++ leftPadded 6 (toString (d.device.memoryBytes.toNat / 1048576)) ++ " MiB  "
    ++ toString d.speed.report.size ++ " timing entries"

def run {m : Type → Type} [Monad m] (s : Storage m) (arguments : List String) : m Outcome :=
  match Request.ofArguments arguments with
  | .misuse => return ⟨2, "", "error: wrong arguments, see 'silica --help'\n"⟩
  | .version => return .success ("silica " ++ version ++ "\n") ""
  | .help topic => return .success (unlines topic.lines) ""
  | .perform _ .devices => return .success (unlines (CatalogDevice.all.map deviceLine)) ""
  | .perform quiet (.generate options) => generate s quiet options

end Fabric.CommandLine
