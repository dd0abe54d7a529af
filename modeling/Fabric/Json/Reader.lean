import Fabric.Json.Basic
import Fabric.Text.Hex

/-!
Reading a document from its text. The reader is a recursive descent over characters; its fuel
counts nested calls, and twice the length of the text is always enough.
-/

namespace Fabric.Json

def isSpace (c : Char) : Bool :=
  c = ' ' || c = '\n' || c = '\t' || c = '\r'

def skipSpace (cs : List Char) : List Char :=
  cs.dropWhile isSpace

def hexUnit (a b c d : Char) : Option Nat := do
  return (← Text.hexValue a) * 4096 + (← Text.hexValue b) * 256 + (← Text.hexValue c) * 16
    + (← Text.hexValue d)

/-- The character that a backslash and one letter stand for. -/
def plainEscape : Char → Option Char
  | '"' => some '"'
  | '\\' => some '\\'
  | '/' => some '/'
  | 'b' => some '\x08'
  | 'f' => some '\x0c'
  | 'n' => some '\n'
  | 'r' => some '\r'
  | 't' => some '\t'
  | _ => none

/-- A part of a text: a character, or a code unit that is escaped by its number. -/
inductive Piece
  | char (c : Char)
  | unit (n : Nat)
deriving DecidableEq, Repr

/-- The parts of a text up to its closing quote, and what follows the quote. A raw control character
is refused. -/
def readPieces : List Char → Option (List Piece × List Char)
  | [] => none
  | '"' :: rest => some ([], rest)
  | '\\' :: 'u' :: a :: b :: c :: d :: rest =>
    match hexUnit a b c d with
    | some n => (readPieces rest).map fun (ps, r) => (.unit n :: ps, r)
    | none => none
  | '\\' :: c :: rest =>
    match plainEscape c with
    | some e => (readPieces rest).map fun (ps, r) => (.char e :: ps, r)
    | none => none
  | c :: rest =>
    if c.toNat < 0x20 then none
    else (readPieces rest).map fun (ps, r) => (.char c :: ps, r)

/-- The characters of a text. One outside the basic plane is escaped as a pair of surrogates; a text
with a surrogate that stands alone has no characters. -/
def joinPieces : List Piece → Option (List Char)
  | [] => some []
  | .char c :: ps => (joinPieces ps).map (c :: ·)
  | .unit n :: ps =>
    if 0xD800 ≤ n ∧ n < 0xDC00 then
      match ps with
      | .unit low :: ps =>
        if 0xDC00 ≤ low ∧ low < 0xE000 then
          (joinPieces ps).map (Char.ofNat (0x10000 + (n - 0xD800) * 0x400 + (low - 0xDC00)) :: ·)
        else none
      | _ => none
    else if 0xDC00 ≤ n ∧ n < 0xE000 then none
    else (joinPieces ps).map (Char.ofNat n :: ·)

/-- The characters of a text, if it is one, and what follows its closing quote. -/
def readText (cs : List Char) : Option (Option (List Char) × List Char) :=
  (readPieces cs).map fun (ps, r) => (joinPieces ps, r)

def ofText : Option (List Char) → Json
  | some cs => .str (String.ofList cs)
  | none => .foreign

/-- The object of some members, if their keys are texts. -/
def ofMembers (members : List (Option (List Char) × Json)) : Json :=
  match members.mapM fun (key, j) => key.map fun cs => (String.ofList cs, j) with
  | some members => .obj members
  | none => .foreign

def natOfDigits (cs : List Char) : Nat :=
  cs.foldl (fun n c => 10 * n + (c.toNat - '0'.toNat)) 0

/-- A fraction part with its point, and the rest; `none` if the point has no digits after it. -/
def readFraction : List Char → Option (List Char × List Char)
  | '.' :: cs =>
    let digits := cs.takeWhile Char.isDigit
    if digits.isEmpty then none else some ('.' :: digits, cs.dropWhile Char.isDigit)
  | cs => some ([], cs)

/-- An exponent part with its letter, and the rest; `none` if the letter has no digits after it. -/
def readExponent : List Char → Option (List Char × List Char)
  | [] => some ([], [])
  | c :: cs =>
    if c = 'e' ∨ c = 'E' then
      let (sign, cs) :=
        match cs with
        | '+' :: r => (['+'], r)
        | '-' :: r => (['-'], r)
        | r => ([], r)
      let digits := cs.takeWhile Char.isDigit
      if digits.isEmpty then none
      else some (c :: (sign ++ digits), cs.dropWhile Char.isDigit)
    else some ([], c :: cs)

def readSign : List Char → Bool × List Char
  | '-' :: cs => (true, cs)
  | cs => (false, cs)

/-- The digits before a fraction, and the rest. A leading zero stands alone. -/
def readWhole : List Char → List Char × List Char
  | '0' :: cs => (['0'], cs)
  | cs => (cs.takeWhile Char.isDigit, cs.dropWhile Char.isDigit)

def readNumber (cs : List Char) : Option (Json × List Char) := do
  let (negative, cs) := readSign cs
  let (whole, rest) := readWhole cs
  if whole.isEmpty then none
  else
    let (fraction, rest) ← readFraction rest
    let (exponent, rest) ← readExponent rest
    let n := natOfDigits whole
    if fraction.isEmpty ∧ exponent.isEmpty ∧ ¬ (negative ∧ n = 0) then
      return (.int (if negative then -(n : Int) else n), rest)
    else
      let sign := if negative then ['-'] else []
      return (.real (String.ofList (sign ++ whole ++ fraction ++ exponent)), rest)

mutual

/-- The value at the start of the characters, and what follows it. -/
def readValue : Nat → List Char → Option (Json × List Char)
  | 0, _ => none
  | fuel + 1, cs =>
    match skipSpace cs with
    | 'n' :: 'u' :: 'l' :: 'l' :: rest => some (.null, rest)
    | 't' :: 'r' :: 'u' :: 'e' :: rest => some (.bool true, rest)
    | 'f' :: 'a' :: 'l' :: 's' :: 'e' :: rest => some (.bool false, rest)
    | '"' :: rest => (readText rest).map fun (s, r) => (ofText s, r)
    | '[' :: rest =>
      match skipSpace rest with
      | ']' :: r => some (.arr [], r)
      | r => (readItems fuel r).map fun (items, r) => (.arr items, r)
    | '\x7b' :: rest =>
      match skipSpace rest with
      | '\x7d' :: r => some (.obj [], r)
      | r => (readMembers fuel r).map fun (members, r) => (ofMembers members, r)
    | r => readNumber r

def readItems : Nat → List Char → Option (List Json × List Char)
  | 0, _ => none
  | fuel + 1, cs =>
    match readValue fuel cs with
    | none => none
    | some (j, rest) =>
      match skipSpace rest with
      | ']' :: r => some ([j], r)
      | ',' :: r => (readItems fuel r).map fun (js, r) => (j :: js, r)
      | _ => none

def readMembers : Nat → List Char → Option (List (Option (List Char) × Json) × List Char)
  | 0, _ => none
  | fuel + 1, cs =>
    match skipSpace cs with
    | '"' :: rest =>
      match readText rest with
      | none => none
      | some (key, rest) =>
        match skipSpace rest with
        | ':' :: rest =>
          match readValue fuel rest with
          | none => none
          | some (j, rest) =>
            match skipSpace rest with
            | '\x7d' :: r => some ([(key, j)], r)
            | ',' :: r => (readMembers fuel r).map fun (ms, r) => ((key, j) :: ms, r)
            | _ => none
        | _ => none
    | _ => none

end

/-- The document that a text holds; only space may follow it. -/
def parse (s : String) : Option Json :=
  let cs := s.toList
  match readValue (2 * cs.length + 2) cs with
  | some (j, rest) => if (skipSpace rest).isEmpty then some j else none
  | none => none

end Fabric.Json
