import Fabric.Hardware.Manifest
import Fabric.Vhdl.Layout
import Fabric.Vhdl.Names

/-!
Sequential statements of dispatchers. A dispatcher keeps which slots are active, which instances are
busy, and the instance that each slot is assigned to; it reads and drives the pins of slots and
instances.
-/

namespace Fabric.Vhdl

/-- A pin of a slot of a proxy or of an instance of its target, by position. -/
inductive Port
  | slot (index : Nat) (pin : PinKind)
  | unit (number : Nat) (pin : PinKind)
deriving DecidableEq, Repr

/-- The arrays of truth values: one for the slots and one for the instances. -/
inductive Flags
  | active
  | busy
deriving DecidableEq, Repr

def Flags.name : Flags → String
  | .active => "active"
  | .busy => "busy"

inductive Condition
  | reset
  | high (port : Port)
  | flag (flags : Flags) (index : Nat)
  | assigned (slot number : Nat)
  | not (condition : Condition)
deriving DecidableEq, Repr

/-- Without a source a port is driven with `false`. The branches of a choice are tried in order. -/
inductive Sequential
  | note (text : String)
  | drive (target : Port) (source : Option Port)
  | set (flags : Flags) (index : Nat) (value : Bool)
  | clear (flags : Flags)
  | assign (slot number : Nat)
  | choose (branches : List (Condition × List Sequential)) (otherwise : Option (List Sequential))

def connect (left right : String) : Step :=
  .line (left ++ " <= " ++ right ++ ";")

namespace Names

def proxySlot (n : Names) (p : Proxy) (slot : InvocationSlot) (pin : PinKind) : String :=
  n.slotSignal p.target slot.caller slot.callerInstance.toNat slot.slot.toNat pin

def port (n : Names) (p : Proxy) : Port → String
  | .slot index pin => n.proxySlot p (p.slots.getD index default) pin
  | .unit number pin => n.instanceSignal p.target number pin

def condition (n : Names) (p : Proxy) : Condition → String
  | .reset => "Reset = '1'"
  | .high port => n.port p port
  | .flag flags index => flags.name ++ "(" ++ toString index ++ ")"
  | .assigned slot number => "assigned(" ++ toString slot ++ ") = " ++ toString number
  | .not c => "not " ++ n.condition p c

mutual

def sequential (n : Names) (p : Proxy) : Sequential → List Step
  | .note text => [.comment text]
  | .drive target source => [connect (n.port p target) ((source.map (n.port p)).getD "false")]
  | .set flags index value =>
    [.line (flags.name ++ "(" ++ toString index ++ ") := " ++ toString value ++ ";")]
  | .clear flags => [.line (flags.name ++ " := (others => false);")]
  | .assign slot number =>
    [.line ("assigned(" ++ toString slot ++ ") := " ++ toString number ++ ";")]
  | .choose branches otherwise =>
    n.sequentialBranches p "if" branches ++ n.sequentialRest p otherwise ++ [Step.line "end if;"]

def sequentials (n : Names) (p : Proxy) : List Sequential → List Step
  | [] => []
  | s :: ss => n.sequential p s ++ n.sequentials p ss

/-- The branches of a choice, the first one with the given word before it. -/
def sequentialBranches (n : Names) (p : Proxy) (word : String) :
    List (Condition × List Sequential) → List Step
  | [] => []
  | (c, body) :: rest =>
    [Step.line (word ++ " " ++ n.condition p c ++ " then")] ++ indented (n.sequentials p body)
      ++ n.sequentialBranches p "elsif" rest

def sequentialRest (n : Names) (p : Proxy) : Option (List Sequential) → List Step
  | none => []
  | some body => [Step.line "else"] ++ indented (n.sequentials p body)

end

end Names

end Fabric.Vhdl
