import Fabric.Text.Lines

/-!
The arguments of the command. Switches may stand before and after the name of a subcommand; options
take a value, in the next argument or after an equals sign. Nothing is given twice at one place.
-/

namespace Fabric.CommandLine

inductive Topic
  | overview
  | generate
  | devices
  | help
deriving DecidableEq, Repr

structure GenerateOptions where
  tree : String
  config : Option String
  out : String
  cacheFolder : Option String
deriving DecidableEq, Repr

inductive Action
  | generate (options : GenerateOptions)
  | devices
deriving DecidableEq, Repr

inductive Request
  | perform (quiet : Bool) (action : Action)
  | version
  | help (topic : Topic)
  | misuse
deriving DecidableEq, Repr

/-- What has been read at one place: before the subcommand or after it. -/
structure Given where
  quiet : Bool := false
  verbose : Bool := false
  tree : Option String := none
  config : Option String := none
  out : Option String := none
  cacheFolder : Option String := none

abbrev Parsing := Except Request

namespace Given

def setQuiet (g : Given) : Parsing Given :=
  if g.quiet then .error .misuse else .ok { g with quiet := true }

def setVerbose (g : Given) : Parsing Given :=
  if g.verbose then .error .misuse else .ok { g with verbose := true }

def tellVersion (topic : Topic) : Parsing Given :=
  .error (if topic = .overview then .version else .misuse)

def setLong (topic : Topic) (name : String) (g : Given) : Parsing Given :=
  if name = "quiet" then g.setQuiet
  else if name = "verbose" then g.setVerbose
  else if name = "help" then .error (.help topic)
  else if name = "version" then tellVersion topic
  else .error .misuse

def setShort (topic : Topic) : List Char → Given → Parsing Given
  | [], g => .ok g
  | c :: cs, g => do
    let g ←
      if c = 'q' then g.setQuiet
      else if c = 'v' then g.setVerbose
      else if c = 'h' then .error (.help topic)
      else if c = 'V' then tellVersion topic
      else .error .misuse
    setShort topic cs g

def setOnce (old : Option String) (value : String) : Parsing (Option String) :=
  if old.isSome || value.isEmpty then .error .misuse else .ok (some value)

def isOption (name : String) : Bool :=
  ["tree", "config", "out", "cache-dir"].contains name

def setOption (name value : String) (g : Given) : Parsing Given := do
  if name = "tree" then return { g with tree := ← setOnce g.tree value }
  else if name = "config" then return { g with config := ← setOnce g.config value }
  else if name = "out" then return { g with out := ← setOnce g.out value }
  else return { g with cacheFolder := ← setOnce g.cacheFolder value }

end Given

/-- The form of an argument: `--name`, `--name=value`, `-abc`, `--`, or a word. -/
inductive Shape
  | long (name : String) (value : Option String)
  | short (letters : List Char)
  | divider
  | word (text : String)
deriving DecidableEq, Repr

def Shape.ofArgument (argument : String) : Shape :=
  match argument.toList with
  | ['-', '-'] => .divider
  | '-' :: '-' :: cs =>
    let name := String.ofList (cs.takeWhile (· ≠ '='))
    match cs.dropWhile (· ≠ '=') with
    | [] => .long name none
    | _ :: value => .long name (some (String.ofList value))
  | '-' :: c :: cs => .short (c :: cs)
  | _ => .word argument

/-- Reads what follows a subcommand. `options` tells whether it has options. -/
def readRest (topic : Topic) (options : Bool) : List String → Given → Parsing Given
  | [], g => .ok g
  | a :: rest, g =>
    match Shape.ofArgument a with
    | .word _ => .error .misuse
    | .divider => if rest.isEmpty then .ok g else .error .misuse
    | .short letters => do readRest topic options rest (← g.setShort topic letters)
    | .long name value =>
      if options && Given.isOption name then
        match value, rest with
        | some value, rest => do readRest topic options rest (← g.setOption name value)
        | none, b :: rest =>
          match Shape.ofArgument b with
          | .word value => do readRest topic options rest (← g.setOption name value)
          | _ => .error .misuse
        | none, [] => .error .misuse
      else if value.isSome then .error .misuse
      else do readRest topic options rest (← g.setLong topic name)

def readHelp : List String → Request
  | [] => .help .overview
  | ["generate"] => .help .generate
  | ["devices"] => .help .devices
  | ["help"] => .help .help
  | _ => .misuse

def readAction (before : Given) (name : String) (rest : List String) : Parsing Request := do
  if name = "help" then return readHelp rest
  else if name = "devices" then
    let g ← readRest .devices false rest {}
    return .perform (before.quiet || g.quiet) .devices
  else if name = "generate" then
    let g ← readRest .generate true rest {}
    match g.tree with
    | none => return .misuse
    | some tree =>
      return .perform (before.quiet || g.quiet)
        (.generate ⟨tree, g.config, g.out.getD "hardware", g.cacheFolder⟩)
  else return .misuse

def readAll : List String → Given → Parsing Request
  | [], _ => .ok .misuse
  | a :: rest, g =>
    match Shape.ofArgument a with
    | .word name => readAction g name rest
    | .divider => .ok .misuse
    | .short letters => do readAll rest (← g.setShort .overview letters)
    | .long name value =>
      if value.isSome then .ok .misuse
      else do readAll rest (← g.setLong .overview name)

def Request.ofArguments (arguments : List String) : Request :=
  match readAll arguments {} with
  | .ok request => request
  | .error request => request

end Fabric.CommandLine
