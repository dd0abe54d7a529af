/-!
What a terminal would show of some bytes: control sequences, control characters and the texts inside
sequences are left out; blanks and the ends of lines stay.

Bytes are either passed on or dropped until one is shown again. A sequence that a blank interrupts
is not over: the text after the blank is shown, and the next control character goes on with it.
-/

namespace Fabric.Text

/-- How far a control sequence has been read. -/
inductive SequencePhase
  | ground
  | escape
  | escapeMiddle
  | control
  | device
  | deviceParameter
  | deviceMiddle
  /-- A text that the end of strings closes. -/
  | string
  /-- A command for the terminal, which a bell closes. -/
  | command
  /-- A character of several bytes, with the number of those to come. -/
  | character (left : Nat)
deriving DecidableEq, Repr

/-- How many bytes follow the first byte of a character. -/
def continuationCount (b : UInt8) : Nat :=
  if 0xC2 ≤ b ∧ b ≤ 0xDF then 1
  else if 0xE0 ≤ b ∧ b ≤ 0xEF then 2
  else if 0xF0 ≤ b ∧ b ≤ 0xF4 then 3
  else 0

def isLayout (b : UInt8) : Bool :=
  b = 0x20 || b = 0x09 || b = 0x0A || b = 0x0C || b = 0x0D

namespace SequencePhase

/-- The phase after a byte that every phase treats alike. -/
def interrupt? (b : UInt8) : Option SequencePhase :=
  if b = 0x18 ∨ b = 0x1A then some .ground
  else if b = 0x1B then some .escape
  else none

def afterEscape (b : UInt8) : SequencePhase :=
  if b < 0x20 ∨ 0x7F ≤ b then .escape
  else if b ≤ 0x2F then .escapeMiddle
  else if b = 0x5B then .control
  else if b = 0x5D then .command
  else if b = 0x50 then .device
  else if b = 0x58 ∨ b = 0x5E ∨ b = 0x5F then .string
  else .ground

def next (p : SequencePhase) (b : UInt8) : SequencePhase :=
  (interrupt? b).getD <|
    let isMiddle := 0x20 ≤ b && b ≤ 0x2F
    match p with
    | .ground => .ground
    | .escape => afterEscape b
    | .escapeMiddle => if 0x30 ≤ b ∧ b ≤ 0x7E then .ground else .escapeMiddle
    | .control => if 0x40 ≤ b ∧ b ≤ 0x7E then .ground else .control
    | .device =>
      if isMiddle then .deviceMiddle
      else if 0x30 ≤ b ∧ b ≤ 0x3F then .deviceParameter
      else if 0x40 ≤ b ∧ b ≤ 0x7E then .string
      else .device
    | .deviceParameter =>
      if isMiddle then .deviceMiddle
      else if 0x3C ≤ b ∧ b ≤ 0x7E then .string
      else .deviceParameter
    | .deviceMiddle => if 0x30 ≤ b ∧ b ≤ 0x7E then .string else .deviceMiddle
    | .string => if b = 0x9C then .ground else .string
    | .command => if b = 0x07 then .ground else .command
    | .character left => .character left

def shows (p : SequencePhase) (b : UInt8) : Bool :=
  match p with
  | .ground => (0x20 ≤ b && b < 0x7F) || isLayout b || 0 < continuationCount b
  | .escape | .escapeMiddle | .control => isLayout b && b ≠ 0x20
  | _ => false

end SequencePhase

/-- What has been read, and whether the last byte was shown. -/
structure Display where
  passing : Bool
  phase : SequencePhase

namespace Display

/-- A byte after one that was shown. It is judged as if no sequence were open. -/
def passByte (p : SequencePhase) (b : UInt8) : Display × Bool :=
  match p with
  | .character left => (⟨true, if left ≤ 1 then .ground else .character (left - 1)⟩, true)
  | p =>
    if 0 < continuationCount b then (⟨true, .character (continuationCount b)⟩, true)
    else if SequencePhase.ground.shows b then (⟨true, p⟩, true)
    else (⟨false, p.next b⟩, false)

def dropByte (p : SequencePhase) (b : UInt8) : Display × Bool :=
  if p.shows b then passByte (p.next b) b else (⟨false, p.next b⟩, false)

def shown (d : Display) : List UInt8 → List UInt8
  | [] => []
  | b :: bytes =>
    let (d, isShown) := if d.passing then passByte d.phase b else dropByte d.phase b
    if isShown then b :: d.shown bytes else d.shown bytes

end Display

def withoutEscapes (bytes : List UInt8) : List UInt8 :=
  (⟨false, .ground⟩ : Display).shown bytes

end Fabric.Text
