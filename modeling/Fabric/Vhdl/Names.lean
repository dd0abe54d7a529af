import Fabric.Config.Basic
import Fabric.Hardware.Component

/-!
Names in the generated text. In verbose mode they are extended identifiers that spell out what they
stand for; in compact mode they are made of positions alone.
-/

namespace Fabric.Vhdl

/-- An extended identifier, in which a backslash is written twice. -/
def extended (text : String) : String :=
  String.ofList ('\\' :: (text.toList.flatMap fun c => if c = '\\' then ['\\', '\\'] else [c])
    ++ ['\\'])

/-- The name of an array type tells its element and its length; scalars have a short tag. -/
def arrayTypeName : HwType → String
  | .boolean => "bool"
  | .signed width => "i" ++ toString width.toNat
  | .unsigned width => "u" ++ toString width.toNat
  | .array element length => "array_" ++ arrayTypeName element ++ "_" ++ toString length.toNat

def compactPin (parameters : List ComponentPin) : PinKind → String
  | .started => "start"
  | .finished => "done"
  | .parameter name => "p" ++ toString (parameters.findIdx fun p => p.name = name)
  | .result => "ret"

/-- The components that names are made from, and the way in which they are made. -/
structure Names where
  mode : GenerationMode
  components : List Component

namespace Names

def isVerbose (n : Names) : Bool :=
  n.mode = .verbose

/-- A component and its position; of two with one name the later one. -/
def find? (n : Names) (member : String) : Option (Component × Nat) :=
  n.components.zipIdx.reverse.find? fun c => c.1.name = member

/-- Letters and digits of a name; everything else becomes an underscore. -/
def plain (name : String) : String :=
  String.ofList (name.toList.map fun c => if c.isAlphanum then c else '_')

/-- The short name of a member: its position among the components. -/
def tag (n : Names) (member : String) : String :=
  match n.find? member with
  | some (_, position) => "c" ++ toString position
  | none => "x_" ++ plain member

def parameters (n : Names) (member : String) : List ComponentPin :=
  match n.find? member with
  | some (c, _) => c.parameters
  | none => []

def instanceSignal (n : Names) (member : String) (number : Nat) (pin : PinKind) : String :=
  if n.isVerbose then extended (member ++ "." ++ toString number ++ "." ++ pin.display)
  else n.tag member ++ "_" ++ toString number ++ "_" ++ compactPin (n.parameters member) pin

/-- A pin of a slot through which a caller invokes a component. -/
def slotSignal (n : Names) (target caller : String) (callerInstance slot : Nat)
    (pin : PinKind) : String :=
  if n.isVerbose then
    extended (target ++ ".Invocation." ++ caller ++ "." ++ toString callerInstance ++ "."
      ++ toString slot ++ "." ++ pin.display)
  else
    let callerTag := if (n.find? caller).isSome then n.tag caller else "ext"
    n.tag target ++ "_from_" ++ callerTag ++ "_" ++ toString callerInstance ++ "_"
      ++ toString slot ++ "_" ++ compactPin (n.parameters target) pin

/-- A pin of the hardware that belongs to an entry point. -/
def entryPin (n : Names) (member : String) (memberId : Nat) (pin : PinKind) : String :=
  if n.isVerbose then extended (member ++ "." ++ pin.display)
  else "m" ++ toString memberId ++ "_" ++ compactPin (n.parameters member) pin

def state (n : Names) (id : StateId) : String :=
  (if n.isVerbose then "State_" else "s") ++ toString id.toNat

def variableName (n : Names) (name : String) (position : Nat) : String :=
  if n.isVerbose then extended name else "v" ++ toString position

def processLabel (n : Names) (member : String) (number : Nat) : String :=
  n.tag member ++ "_" ++ toString number

def proxyLabel (n : Names) (target : String) : String :=
  n.tag target ++ "_proxy"

end Names

end Fabric.Vhdl
