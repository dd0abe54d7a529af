import Fabric.Hardware.Manifest
import Fabric.Vhdl.Dispatcher
import Fabric.Vhdl.Process

/-!
The text of generated hardware: a package with the array types, the entity with the pins of the
entry points, and the architecture with all processes.
-/

namespace Fabric.Vhdl

def topEntity : String := "Silica_Hardware"

def typesPackage : String := "Silica_Types"

def libraries : List Step :=
  [.line "library ieee;", .line "use ieee.std_logic_1164.all;", .line "use ieee.numeric_std.all;"]

def insertType (t : HwType) : List HwType → List HwType
  | [] => [t]
  | s :: rest =>
    match t.cmp s with
    | .lt => t :: s :: rest
    | .eq => s :: rest
    | .gt => s :: insertType t rest

/-- The array types that occur in a type, elements first. -/
def arraysIn : HwType → List HwType
  | .array element length => arraysIn element ++ [.array element length]
  | _ => []

def typesOf (c : Component) : List HwType :=
  c.parameters.map ComponentPin.type ++ c.returnType.toList
    ++ c.declarations.map Declaration.type

/-- The array types of a manifest in the order of types. -/
def arrayTypes (m : Manifest) : List HwType :=
  ((m.components.flatMap typesOf).flatMap arraysIn).foldl (fun ts t => insertType t ts) []

def arrayDeclaration : HwType → List Step
  | .array element length =>
    [.line ("type " ++ arrayTypeName (.array element length) ++ " is array (0 to "
      ++ toString (length.toNat - 1) ++ ") of " ++ typeText element ++ ";")]
  | _ => []

def package (m : Manifest) : List Step :=
  libraries ++ [Step.blank, Step.line ("package " ++ typesPackage ++ " is")]
    ++ indented ((arrayTypes m).flatMap arrayDeclaration)
    ++ [Step.line ("end package " ++ typesPackage ++ ";")]

def pinLines : List String → List Step
  | [] => []
  | [last] => [.line last]
  | pin :: rest => .line (pin ++ ";") :: pinLines rest

namespace Names

/-- The pins of the hardware that belong to an entry point. -/
def entryPins (n : Names) (e : EntryPointInfo) (c : Component) : List String :=
  let name (pin : PinKind) := n.entryPin e.fullName e.memberId.toNat pin
  c.parameters.map (fun p => name (.parameter p.name) ++ " : in " ++ typeText p.type)
    ++ c.returnType.toList.map fun t => name .result ++ " : out " ++ typeText t

def entity (n : Names) (m : Manifest) : List Step :=
  let pins :=
    ["Clock : in std_logic", "Reset : in std_logic", "MemberId : in natural",
      "Started : in std_logic", "Finished : out std_logic"]
      ++ m.entryPoints.flatMap fun e =>
        match m.component? e.fullName with
        | some c => n.entryPins e c
        | none => []
  libraries
    ++ [Step.line ("use work." ++ typesPackage ++ ".all;"), Step.blank,
      Step.line ("entity " ++ topEntity ++ " is")]
    ++ indented ([Step.line "port ("] ++ indented (pinLines pins) ++ [Step.line ");"])
    ++ [Step.line ("end entity " ++ topEntity ++ ";")]

def interfaceSignals (name : PinKind → String) (pins : List ComponentPin)
    (returnType : Option HwType) : List Step :=
  let flag (pin : PinKind) : Step := .line ("signal " ++ name pin ++ " : boolean := false;")
  let value (pin : PinKind) (t : HwType) : Step :=
    .line ("signal " ++ name pin ++ " : " ++ typeText t ++ " := " ++ (defaultCode t).print ++ ";")
  [flag .started, flag .finished] ++ pins.map (fun p => value (.parameter p.name) p.type)
    ++ returnType.toList.map (value .result)

def instanceSignals (n : Names) (c : Component) : List Step :=
  (if n.isVerbose then [Step.comment (c.name ++ " instances")] else [])
    ++ (List.range c.instanceCount.toNat).flatMap fun k =>
      interfaceSignals (n.instanceSignal c.name k) c.parameters c.returnType

def slotSignals (n : Names) (p : Proxy) : List Step :=
  (if n.isVerbose then [Step.comment (p.target ++ " invocation slots")] else [])
    ++ p.slots.flatMap fun slot =>
      interfaceSignals (n.proxySlot p slot) p.parameters p.returnType

/-- The slot through which an entry point is called from outside. -/
def externalSlot (n : Names) (member : String) (pin : PinKind) : String :=
  n.slotSignal member externalCaller 0 0 pin

def selected (n : Names) (e : EntryPointInfo) (c : Component) : List Step :=
  let slot (pin : PinKind) := n.externalSlot e.fullName pin
  let entry (pin : PinKind) := n.entryPin e.fullName e.memberId.toNat pin
  let parameters := c.parameters.map fun p =>
    connect (slot (.parameter p.name)) (entry (.parameter p.name))
  let result := if c.returnType.isSome then [connect (entry .result) (slot .result)] else []
  Step.line ("when " ++ toString e.memberId.toNat ++ " =>") :: indented
    ((if n.isVerbose then [Step.comment e.fullName] else [])
      ++ [connect (slot .started) "Started = '1'"] ++ parameters
      ++ [Step.line ("if " ++ slot .finished ++ " then")]
      ++ indented (Step.line "Finished <= '1';" :: result)
      ++ [Step.line "else"] ++ indented [Step.line "Finished <= '0';"] ++ [Step.line "end if;"])

/-- The process that starts the entry point with the number at the inputs. -/
def dispatch (n : Names) (m : Manifest) : List Step :=
  let reset := Step.line "Finished <= '0';" :: m.entryPoints.map fun e =>
    connect (n.externalSlot e.fullName .started) "false"
  let cases := m.entryPoints.flatMap fun e =>
    match m.component? e.fullName with
    | some c => n.selected e c
    | none => []
  (if n.isVerbose then [Step.comment "Member-id dispatch"] else [])
    ++ [Step.line "dispatch: process (Clock)", Step.line "begin"]
    ++ indented
      ([Step.line "if rising_edge(Clock) then"]
        ++ indented
          ([Step.line "if Reset = '1' then"] ++ indented reset
            ++ [Step.line "else"]
            ++ indented
              ([Step.line "case MemberId is"]
                ++ indented (cases ++ [Step.line "when others =>"]
                  ++ indented [Step.line "Finished <= '0';"])
                ++ [Step.line "end case;"])
            ++ [Step.line "end if;"])
        ++ [Step.line "end if;"])
    ++ [Step.line "end process;"]

def processes (n : Names) (c : Component) : List Step :=
  (List.range c.instanceCount.toNat).flatMap fun k =>
    Step.blank :: Scope.process ⟨n, c, k⟩

def architecture (n : Names) (m : Manifest) : List Step :=
  [Step.line ("architecture Behavioral of " ++ topEntity ++ " is")]
    ++ indented (m.components.flatMap n.instanceSignals ++ m.proxies.flatMap n.slotSignals)
    ++ [Step.line "begin"]
    ++ indented
      (n.dispatch m ++ m.components.flatMap n.processes
        ++ m.proxies.flatMap fun p => Step.blank :: n.proxy p)
    ++ [Step.line "end architecture Behavioral;"]

end Names

def steps (m : Manifest) (device : Device) (identity : String) (mode : GenerationMode) :
    List Step :=
  let n : Names := ⟨mode, m.components⟩
  (if n.isVerbose then
      [Step.comment ("Generated by silica for " ++ device.name ++ " at " ++ device.clock.display),
        Step.comment ("Transformation identity: " ++ identity), Step.blank]
    else [])
    ++ package m ++ [Step.blank] ++ n.entity m ++ [Step.blank] ++ n.architecture m

def write (m : Manifest) (device : Device) (identity : String) (mode : GenerationMode) : String :=
  layout (steps m device identity mode)

end Fabric.Vhdl
