import Fabric.Hardware.Expr
import Fabric.Power
import Fabric.Synthesis.Error

/-!
The hardware types of source values, and the types in which operators work. Two integers of
different signedness meet in a signed type that holds both.
-/

namespace Fabric

/-- The hardware type of an element or of a cast: an integer or a boolean. -/
def TypeRef.scalarHardware? : TypeRef → Option HwType
  | .bool => some .boolean
  | .int width signed => some (.scalar width signed)
  | _ => none

/-- The hardware type of a value. `key` is the name under which the length of an array is known;
`member` is named in errors. -/
def TypeRef.hardware (arrays : ArrayTable) (key member : String) : TypeRef → Synthesis HwType
  | .bool => .ok .boolean
  | .int width signed => .ok (.scalar width signed)
  | .array element =>
    match element with
    | .array _ => .error (.unsupported "multi-dimensional array" member)
    | element =>
      match element.scalarHardware? with
      | none => .error (.unsupported ("array of `" ++ element.display ++ "`") member)
      | some element =>
        match arrays.require key with
        | .ok length => .ok (.array element length)
        | .error e => .error (.ofResolveError e)
  | .void => .error (.unsupported "use of a void value" member)
  | .named name => .error (.unsupported ("value of type `" ++ name ++ "`") member)

def TypeRef.resultHardware (arrays : ArrayTable) (key member : String) (t : TypeRef) :
    Synthesis (Option HwType) :=
  match t with
  | .void => .ok none
  | t => (t.hardware arrays key member).map some

def reportWidths : List UInt16 := [8, 16, 32, 64]

/-- The next width for which latencies are known, or the width itself if it is beyond them. -/
def reportWidth (width : UInt16) : UInt16 :=
  (reportWidths.find? fun w => width ≤ w).getD width

namespace HwType

def promote (a b : HwType) : Option HwType :=
  if a = b then some a
  else
    match a, b with
    | .signed v, .signed w => some (.signed (max v w))
    | .unsigned v, .unsigned w => some (.unsigned (max v w))
    | .signed s, .unsigned u | .unsigned u, .signed s =>
      some (.signed (reportWidth (UInt16.ofNat (max s.toNat (min (u.toNat + 1) 65535)))))
    | _, _ => none

/-- The width and signedness under which the latency of an operator is looked up. -/
def costShape : HwType → Option (UInt16 × Bool)
  | .boolean => some (1, false)
  | t => t.shape.map fun s => (reportWidth s.1, s.2)

/-- Whether a type of integers has the number of a word. A signed type without bits has none. -/
def represents (value : Int64) : HwType → Bool
  | .signed width =>
    if 64 ≤ width then true
    else if width = 0 then false
    else
      let bound : Int := twoPow (width.toNat - 1)
      decide (-bound ≤ value.toInt ∧ value.toInt < bound)
  | .unsigned width =>
    if value < 0 then false
    else 64 ≤ width ∨ value.toInt < twoPow width.toNat
  | _ => false

/-- Asks whether a value fits a type. A signed type without bits has no bounds to compare it with. -/
def fits (value : Int64) (t : HwType) : Except Fault Bool :=
  if t = .signed 0 then .error .underflow else .ok (t.represents value)

/-- Stops where it cannot be asked whether a value fits a type. -/
def checkFits (value : Int64) (t : HwType) : Synthesis Unit :=
  match t.fits value with
  | .error fault => .error (.fault fault)
  | .ok _ => .ok ()

end HwType

end Fabric
