import Fabric.Text.Hex

/-!
Texts and keys of configuration documents, and what stands between values: blanks, comments and the
ends of lines. A text is quoted, where escapes are replaced, or literal, where every character stands
for itself; both may go over several lines.
-/

namespace Fabric.Toml

def isSpace (c : Char) : Bool :=
  c = ' ' || c = '\t'

def skipSpace (cs : List Char) : List Char :=
  cs.dropWhile isSpace

def inComment (c : Char) : Bool :=
  c = '\t' || (0x20 ≤ c.toNat && c.toNat ≠ 0x7F)

def skipComment : List Char → List Char
  | '#' :: cs => cs.dropWhile inComment
  | cs => cs

/-- The rest after a line feed, which a carriage return may precede. -/
def newline : List Char → Option (List Char)
  | '\n' :: cs => some cs
  | '\r' :: '\n' :: cs => some cs
  | _ => none

/-- The rest after the end of a line, behind blanks and a comment. -/
def lineEnd (cs : List Char) : Option (List Char) :=
  match skipComment (skipSpace cs) with
  | [] => some []
  | cs => newline cs

/-- The rest after blanks, comments and line ends inside an array. -/
def skipLines : Nat → List Char → List Char
  | 0, cs => cs
  | fuel + 1, cs =>
    let rest := skipComment (skipSpace cs)
    match newline rest with
    | some rest => skipLines fuel rest
    | none => skipSpace cs

def isBareKey (c : Char) : Bool :=
  ('a' ≤ c && c ≤ 'z') || ('A' ≤ c && c ≤ 'Z') || c.isDigit || c = '_' || c = '-'

/-- A character that stands for itself in a quoted text. -/
def inBasic (c : Char) : Bool :=
  c = '\t' || (0x20 ≤ c.toNat && c ≠ '"' && c ≠ '\\' && c.toNat ≠ 0x7F)

/-- A character that stands for itself in a literal text. -/
def inLiteral (c : Char) : Bool :=
  c = '\t' || (0x20 ≤ c.toNat && c ≠ '\'' && c.toNat ≠ 0x7F)

/-- The character with the code of the given hexadecimal digits. -/
def scalar (digits : List Char) : Option Char := do
  let n ← digits.foldlM (fun n c => (Text.hexValue c).map fun d => 16 * n + d) 0
  if n < 0xD800 ∨ (0xE000 ≤ n ∧ n < 0x110000) then some (Char.ofNat n) else none

/-- The character of an escape sequence without its backslash, and the rest. -/
def escape : List Char → Option (Char × List Char)
  | 'b' :: cs => some ('\x08', cs)
  | 't' :: cs => some ('\t', cs)
  | 'n' :: cs => some ('\n', cs)
  | 'f' :: cs => some ('\x0c', cs)
  | 'r' :: cs => some ('\r', cs)
  | '"' :: cs => some ('"', cs)
  | '\\' :: cs => some ('\\', cs)
  | 'u' :: cs =>
    if cs.length < 4 then none else (scalar (cs.take 4)).map fun c => (c, cs.drop 4)
  | 'U' :: cs =>
    if cs.length < 8 then none else (scalar (cs.take 8)).map fun c => (c, cs.drop 8)
  | _ => none

/-- A quoted text up to its closing quote. The fuel bounds its length. -/
def basicText : Nat → List Char → Option (List Char × List Char)
  | 0, _ => none
  | fuel + 1, cs =>
    match cs with
    | '"' :: rest => some ([], rest)
    | '\\' :: rest => do
      let (c, rest) ← escape rest
      let (text, rest) ← basicText fuel rest
      return (c :: text, rest)
    | c :: rest =>
      if inBasic c then (basicText fuel rest).map fun (text, rest) => (c :: text, rest) else none
    | [] => none

def literalText (cs : List Char) : Option (List Char × List Char) :=
  match cs.dropWhile inLiteral with
  | '\'' :: rest => some (cs.takeWhile inLiteral, rest)
  | _ => none

/-- The rest after a backslash at the end of a line: all blanks and line ends that follow. -/
def skipBlankLines : Nat → List Char → List Char
  | 0, cs => cs
  | fuel + 1, cs =>
    match newline (skipSpace cs) with
    | some rest => skipBlankLines fuel rest
    | none => skipSpace cs

/-- The end of a text over several lines: three quotes, and up to two more that belong to it. -/
def closing (quote : Char) (cs : List Char) : Option (List Char × List Char) :=
  match cs with
  | a :: b :: c :: rest =>
    if a = quote ∧ b = quote ∧ c = quote then
      match rest with
      | d :: e :: rest' =>
        if d = quote ∧ e = quote then some ([quote, quote], rest')
        else if d = quote then some ([quote], e :: rest')
        else some ([], rest)
      | [d] => if d = quote then some ([quote], []) else some ([], rest)
      | [] => some ([], rest)
    else none
  | _ => none

/-- A quoted text over several lines, without the line end that may follow its opening. -/
def longBasicText : Nat → List Char → Option (List Char × List Char)
  | 0, _ => none
  | fuel + 1, cs =>
    match closing '"' cs with
    | some found => some found
    | none =>
      match cs with
      | '\\' :: rest =>
        match newline (skipSpace rest) with
        | some rest => longBasicText fuel (skipBlankLines rest.length rest)
        | none => do
          let (c, rest) ← escape rest
          let (text, rest) ← longBasicText fuel rest
          return (c :: text, rest)
      | _ =>
        match newline cs with
        | some rest => (longBasicText fuel rest).map fun (text, rest) => ('\n' :: text, rest)
        | none =>
          match cs with
          | c :: rest =>
            if inBasic c || c = '"' then
              (longBasicText fuel rest).map fun (text, rest) => (c :: text, rest)
            else none
          | [] => none

def longLiteralText : Nat → List Char → Option (List Char × List Char)
  | 0, _ => none
  | fuel + 1, cs =>
    match closing '\'' cs with
    | some found => some found
    | none =>
      match newline cs with
      | some rest => (longLiteralText fuel rest).map fun (text, rest) => ('\n' :: text, rest)
      | none =>
        match cs with
        | c :: rest =>
          if inLiteral c || c = '\'' then
            (longLiteralText fuel rest).map fun (text, rest) => (c :: text, rest)
          else none
        | [] => none

def dropFirstNewline (cs : List Char) : List Char :=
  (newline cs).getD cs

def simpleKey (cs : List Char) : Option (String × List Char) :=
  match cs with
  | '"' :: rest => (basicText (rest.length + 1) rest).map fun (k, r) => (String.ofList k, r)
  | '\'' :: rest => (literalText rest).map fun (k, r) => (String.ofList k, r)
  | cs =>
    let bare := cs.takeWhile isBareKey
    if bare.isEmpty then none else some (String.ofList bare, cs.dropWhile isBareKey)

/-- The parts of a key, at most the given number, between which points stand. -/
def keyParts : Nat → List Char → Option (List String × List Char)
  | 0, _ => none
  | count + 1, cs => do
    let (key, rest) ← simpleKey (skipSpace cs)
    let rest := skipSpace rest
    match rest with
    | '.' :: rest =>
      let (keys, rest) ← keyParts count rest
      return (key :: keys, rest)
    | _ => return ([key], rest)

/-- How many tables may stand inside each other by the parts of one key, and how many containers by
one value. -/
def nestingLimit : Nat := 79

def dottedKey (cs : List Char) : Option (List String × List Char) :=
  keyParts nestingLimit cs

end Fabric.Toml
