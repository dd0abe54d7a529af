import Fabric.Binary64.Arithmetic
import Fabric.Decimal.Reader
import Fabric.Decimal.Printer
import Fabric.Text.Lines

/-!
Clock frequencies, read from texts such as `100MHz` and written in the largest unit that leaves
at least one.
-/

namespace Fabric

structure Frequency where
  hz : Binary64
deriving BEq

namespace Frequency

inductive Unit
  | giga
  | mega
  | kilo
  | one
deriving DecidableEq, Repr

def Unit.all : List Unit := [.giga, .mega, .kilo, .one]

def Unit.scale : Unit → Binary64
  | .giga => 1000000000
  | .mega => 1000000
  | .kilo => 1000
  | .one => 1

def Unit.symbol : Unit → String
  | .giga => "GHz"
  | .mega => "MHz"
  | .kilo => "KHz"
  | .one => "Hz"

def mhz (f : Frequency) : Binary64 :=
  f.hz / 1000000

def display (f : Frequency) : String :=
  match Unit.all.find? fun u => u.scale ≤ f.hz with
  | some u => Decimal.write (f.hz / u.scale) ++ u.symbol
  | none => Decimal.write f.hz ++ Unit.one.symbol

/-- A text that is no frequency, without the blanks around it. -/
structure ParseError where
  input : String
deriving DecidableEq, Repr

def ParseError.message (e : ParseError) : String :=
  "invalid frequency: '" ++ e.input ++ "'"

def stripEnding (ending cs : List Char) : Option (List Char) :=
  if ending.isSuffixOf cs then some (cs.take (cs.length - ending.length)) else none

/-- The number and the unit of a text in small letters; without a unit the number is in hertz. -/
def splitUnit (cs : List Char) : List Char × Unit :=
  let found := Unit.all.findSome? fun u =>
    (stripEnding (u.symbol.toList.map Char.toLower) cs).map fun number => (number, u)
  found.getD (cs, .one)

/-- The frequency that a text denotes: a positive finite number with an optional unit. -/
def parse (s : String) : Except ParseError Frequency :=
  let trimmed := Text.trim s
  let (number, unit) := splitUnit (Text.lowercase trimmed).toList
  match Decimal.read (String.ofList (Text.trimChars number)) with
  | some value =>
    if value.isFinite && 0 < value then .ok ⟨value * unit.scale⟩ else .error ⟨trimmed⟩
  | none => .error ⟨trimmed⟩

end Frequency

end Fabric
