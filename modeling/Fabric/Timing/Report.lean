import Fabric.Decimal.Reader
import Fabric.Decimal.Printer
import Fabric.Power
import Fabric.Text.Lines

/-!
Timing reports: the latencies of operators by the width and signedness of their operands, and for
some of them by a constant right operand. A report is read from lines of five fields; of two lines
with the same key the later one counts.
-/

namespace Fabric

/-- The operations that hardware spends time on. -/
inductive Operator
  | add
  | sub
  | neg
  | mul
  | div
  | rem
  | and
  | or
  | xor
  | not
  | shl
  | shr
  | eq
  | ne
  | lt
  | le
  | gt
  | ge
  | index
deriving DecidableEq, Repr

namespace Operator

def all : List Operator :=
  [.add, .sub, .neg, .mul, .div, .rem, .and, .or, .xor, .not, .shl, .shr, .eq, .ne, .lt, .le, .gt,
    .ge, .index]

def name : Operator → String
  | .add => "add"
  | .sub => "sub"
  | .neg => "neg"
  | .mul => "mul"
  | .div => "div"
  | .rem => "rem"
  | .and => "and"
  | .or => "or"
  | .xor => "xor"
  | .not => "not"
  | .shl => "shl"
  | .shr => "shr"
  | .eq => "eq"
  | .ne => "ne"
  | .lt => "lt"
  | .le => "le"
  | .gt => "gt"
  | .ge => "ge"
  | .index => "index"

/-- The operator with a name, in any case and between blanks. -/
def ofName? (s : String) : Option Operator :=
  let word := Text.lowercase (Text.trim s)
  all.find? fun op => op.name = word

def unknownMessage (s : String) : String :=
  "unknown operator `" ++ s ++ "`"

end Operator

inductive TimingError
  | unknownDevice (device : String)
  | malformed (line : Nat) (reason : String)
  | missingEntry (operator : String) (width : UInt16) (signed : Bool)
  | invalidLatency (operator : String) (width : UInt16) (latency : Binary64)
  | invalidClock (reason : String)

def TimingError.message : TimingError → String
  | .unknownDevice device => "unknown device `" ++ device ++ "`"
  | .malformed line reason => "timing report line " ++ toString line ++ ": " ++ reason
  | .missingEntry operator width signed =>
    "no timing entry for `" ++ operator ++ "` on " ++ toString width.toNat ++ "-bit "
      ++ (if signed then "signed" else "unsigned") ++ " operands"
  | .invalidLatency operator width latency =>
    "invalid latency " ++ Decimal.write latency ++ " ns for `" ++ operator ++ "` on "
      ++ toString width.toNat ++ "-bit operands"
  | .invalidClock reason => "invalid clock frequency: " ++ reason

structure TimingKey where
  operator : Operator
  width : UInt16
  signed : Bool
  constant : Option Int64
deriving DecidableEq, Repr

/-- Latencies in nanoseconds, each key once. -/
structure TimingReport where
  entries : List (TimingKey × Binary64)

namespace TimingReport

def empty : TimingReport := ⟨[]⟩

/-- Enters a latency, in the place of the one with the same key if there is one. -/
def insertEntry (key : TimingKey) (latency : Binary64) :
    List (TimingKey × Binary64) → List (TimingKey × Binary64)
  | [] => [(key, latency)]
  | (k, l) :: rest =>
    if k = key then (key, latency) :: rest else (k, l) :: insertEntry key latency rest

def insert (r : TimingReport) (key : TimingKey) (latency : Binary64) : TimingReport :=
  ⟨insertEntry key latency r.entries⟩

def get? (r : TimingReport) (key : TimingKey) : Option Binary64 :=
  (r.entries.find? fun e => e.1 = key).map Prod.snd

def size (r : TimingReport) : Nat :=
  r.entries.length

/-- The latency of an operator: that for the constant right operand if there is one, otherwise the
one for any operand. -/
def latency (r : TimingReport) (operator : Operator) (width : UInt16) (signed : Bool)
    (constant : Option Int64) : Except TimingError Binary64 :=
  let specialised := constant.bind fun c => r.get? ⟨operator, width, signed, some c⟩
  match specialised.orElse fun _ => r.get? ⟨operator, width, signed, none⟩ with
  | some ns => .ok ns
  | none => .error (.missingEntry operator.name width signed)

/-- A natural number, with an optional plus sign, below a bound. -/
def readNat (bound : Nat) (s : String) : Option Nat :=
  let digits :=
    match s.toList with
    | '+' :: cs => cs
    | cs => cs
  if digits.isEmpty ∨ ¬ digits.all Char.isDigit then none
  else
    let n := Decimal.natOfDigits digits
    if n < bound then some n else none

def readInt64 (s : String) : Option Int64 :=
  match s.toList with
  | '-' :: cs =>
    if cs.isEmpty ∨ ¬ cs.all Char.isDigit then none
    else
      let n := Decimal.natOfDigits cs
      if n ≤ twoPow 63 then some (Int64.ofInt (-(n : Int))) else none
  | _ => (readNat (twoPow 63) s).map fun n => Int64.ofInt n

def quoted (reason value : String) : String :=
  reason ++ " `" ++ value ++ "`"

/-- The entry that the five fields of a line give, or what is wrong with them. -/
def readFields (operator width signedness constant latency : String) :
    Except String (TimingKey × Binary64) := do
  let op ←
    match Operator.ofName? operator with
    | some op => .ok op
    | none => .error (Operator.unknownMessage operator)
  let w ←
    match readNat (twoPow 16) width with
    | some n => .ok (UInt16.ofNat n)
    | none => .error (quoted "invalid width" width)
  let signed ←
    if signedness = "signed" then .ok true
    else if signedness = "unsigned" then .ok false
    else .error (quoted "invalid signedness" signedness)
  let c ←
    if constant = "*" then .ok none
    else
      match readInt64 constant with
      | some n => .ok (some n)
      | none => .error (quoted "invalid constant" constant)
  match Decimal.read latency with
  | some ns =>
    if ns.isFinite then .ok (⟨op, w, signed, c⟩, ns) else .error (quoted "invalid latency" latency)
  | none => .error (quoted "invalid latency" latency)

/-- The part of a line before a comment, without blanks around it. -/
def content (line : String) : String :=
  String.ofList (Text.trimChars (line.toList.takeWhile (· ≠ '#')))

/-- The entry of a line; a line of blanks and comments has none. -/
def readLine (line : String) : Except String (Option (TimingKey × Binary64)) :=
  let text := content line
  if text.isEmpty then .ok none
  else
    match (Text.split ',' text).map Text.trim with
    | [operator, width, signedness, constant, latency] =>
      (readFields operator width signedness constant latency).map some
    | fields => .error ("expected 5 fields, found " ++ toString fields.length)

/-- Enters lines one after another, the first of them with the given number. -/
def readLines (number : Nat) (r : TimingReport) : List String → Except TimingError TimingReport
  | [] => .ok r
  | line :: rest =>
    match readLine line with
    | .error reason => .error (.malformed number reason)
    | .ok none => readLines (number + 1) r rest
    | .ok (some (key, ns)) => readLines (number + 1) (r.insert key ns) rest

def parse (text : String) : Except TimingError TimingReport :=
  readLines 1 empty (Text.lines text)

end TimingReport

end Fabric
