import Fabric.Toml.Date
import Fabric.Toml.Number
import Fabric.Toml.Table
import Fabric.Toml.Text

/-!
Reading configuration documents: lines with headers, which open tables, and lines with a key and a
value.
-/

namespace Fabric.Toml

/-- A value without quotes, brackets or braces: a number, a date or a time. -/
def plainValue (cs : List Char) : Option (Json × List Char) :=
  match skipMoment cs with
  | some rest => some (.foreign, rest)
  | none => (fraction cs).orElse fun _ => integer cs

mutual

/-- A value in which at most `depth` containers stand inside each other. -/
def value : Nat → Nat → List Char → Option (Json × List Char)
  | 0, _, _ => none
  | fuel + 1, depth, cs =>
    match cs with
    | '"' :: '"' :: '"' :: rest =>
      (longBasicText (rest.length + 1) (dropFirstNewline rest)).map fun (s, r) =>
        (.str (String.ofList s), r)
    | '"' :: rest =>
      (basicText (rest.length + 1) rest).map fun (s, r) => (.str (String.ofList s), r)
    | '\'' :: '\'' :: '\'' :: rest =>
      (longLiteralText (rest.length + 1) (dropFirstNewline rest)).map fun (s, r) =>
        (.str (String.ofList s), r)
    | '\'' :: rest => (literalText rest).map fun (s, r) => (.str (String.ofList s), r)
    | 't' :: 'r' :: 'u' :: 'e' :: rest => some (.bool true, rest)
    | 'f' :: 'a' :: 'l' :: 's' :: 'e' :: rest => some (.bool false, rest)
    | '[' :: rest =>
      match depth with
      | 0 => none
      | depth + 1 => (arrayItems fuel depth rest).map fun (items, r) => (.arr items, r)
    | '\x7b' :: rest =>
      match depth with
      | 0 => none
      | depth + 1 =>
        match skipSpace rest with
        | '\x7d' :: r => some (.obj [], r)
        | rest => (inlineMembers fuel depth [] rest).map fun (es, r) => (.obj (entriesToJson es), r)
    | cs => plainValue cs

/-- Items up to the closing bracket, which a comma may precede. -/
def arrayItems : Nat → Nat → List Char → Option (List Json × List Char)
  | 0, _, _ => none
  | fuel + 1, depth, cs =>
    match skipLines cs.length cs with
    | ']' :: rest => some ([], rest)
    | cs => do
      let (item, rest) ← value fuel depth cs
      match skipLines rest.length rest with
      | ']' :: rest => return ([item], rest)
      | ',' :: rest =>
        let (items, rest) ← arrayItems fuel depth rest
        return (item :: items, rest)
      | _ => none

/-- Members up to the closing brace, added to those before them. -/
def inlineMembers : Nat → Nat → Entries → List Char → Option (Entries × List Char)
  | 0, _, _, _ => none
  | fuel + 1, depth, entries, cs => do
    let (path, rest) ← dottedKey cs
    match rest with
    | '=' :: rest =>
      let (content, rest) ← value fuel depth (skipSpace rest)
      let key ← path.getLast?
      let entries ← Entries.insert content key path.dropLast entries
      match skipSpace rest with
      | '\x7d' :: rest => return (entries, rest)
      | ',' :: rest => inlineMembers fuel depth entries rest
      | _ => none
    | _ => none

end

/-- Where the lines that follow add their keys. -/
structure Document where
  root : Entries
  path : List String

/-- Adds a value to the table that the last header opened. -/
def Document.insert (d : Document) (path : List String) (content : Json) : Option Document := do
  let key ← path.getLast?
  let root ← Entries.descend (Entries.insert content key path.dropLast) d.path d.root
  return { d with root := root }

def line (d : Document) (cs : List Char) : Option (Document × List Char) :=
  match skipSpace cs with
  | '[' :: '[' :: rest => do
    let (path, rest) ← dottedKey rest
    match rest with
    | ']' :: ']' :: rest =>
      let key ← path.getLast?
      let root ← Entries.openItem d.root path.dropLast key
      return (⟨root, path⟩, ← lineEnd rest)
    | _ => none
  | '[' :: rest => do
    let (path, rest) ← dottedKey rest
    match rest with
    | ']' :: rest =>
      let key ← path.getLast?
      let root ← Entries.openTable d.root path.dropLast key
      return (⟨root, path⟩, ← lineEnd rest)
    | _ => none
  | cs =>
    match lineEnd cs with
    | some rest => some (d, rest)
    | none => do
      let (path, rest) ← dottedKey cs
      match rest with
      | '=' :: rest =>
        let rest := skipSpace rest
        let (content, rest) ← value (2 * rest.length + 2) nestingLimit rest
        let d ← d.insert path content
        return (d, ← lineEnd rest)
      | _ => none

def lines : Nat → Document → List Char → Option Document
  | 0, _, _ => none
  | fuel + 1, d, cs =>
    if cs.isEmpty then some d
    else do
      let (d, rest) ← line d cs
      lines fuel d rest

/-- The document that a text holds; a mark of the byte order may precede it. -/
def parse (s : String) : Option Json :=
  let cs :=
    match s.toList with
    | '\uFEFF' :: cs => cs
    | cs => cs
  (lines (cs.length + 1) ⟨[], []⟩ cs).map fun d => .obj (entriesToJson d.root)

end Fabric.Toml
