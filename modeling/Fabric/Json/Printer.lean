import Fabric.Json.Basic
import Fabric.Text.Hex
import Fabric.Text.Lines

/-!
Writing a document: on one line, or with one member or item to a line and two blanks of indentation
for each level. A foreign value has no text of its own and is written as `null`.
-/

namespace Fabric.Json

/-- A character inside a text: quotes, backslashes and control characters are escaped. -/
def escape (c : Char) : List Char :=
  if c = '"' then ['\\', '"']
  else if c = '\\' then ['\\', '\\']
  else if c = '\x08' then ['\\', 'b']
  else if c = '\x0c' then ['\\', 'f']
  else if c = '\n' then ['\\', 'n']
  else if c = '\r' then ['\\', 'r']
  else if c = '\t' then ['\\', 't']
  else if c.toNat < 0x20 then
    ['\\', 'u', '0', '0', Text.hexDigit (c.toNat / 16), Text.hexDigit (c.toNat % 16)]
  else [c]

def quote (s : String) : String :=
  String.ofList ('"' :: (s.toList.flatMap escape ++ ['"']))

def indentation (level : Nat) : String :=
  String.ofList (List.replicate (2 * level) ' ')

mutual

/-- The text of a document whose first line is already indented. -/
def pretty (level : Nat) : Json → String
  | .null => "null"
  | .bool true => "true"
  | .bool false => "false"
  | .int n => toString n
  | .real text => text
  | .str s => quote s
  | .arr items =>
    if items.isEmpty then "[]"
    else
      "[\n" ++ Text.joinWith ",\n" (prettyItems (level + 1) items) ++ "\n"
        ++ indentation level ++ "]"
  | .obj members =>
    if members.isEmpty then "\x7b\x7d"
    else
      "\x7b\n" ++ Text.joinWith ",\n" (prettyMembers (level + 1) members) ++ "\n"
        ++ indentation level ++ "\x7d"
  | .foreign => "null"

def prettyItems (level : Nat) : List Json → List String
  | [] => []
  | j :: js => (indentation level ++ pretty level j) :: prettyItems level js

def prettyMembers (level : Nat) : List (String × Json) → List String
  | [] => []
  | (key, j) :: ms =>
    (indentation level ++ quote key ++ ": " ++ pretty level j) :: prettyMembers level ms

end

mutual

def compact : Json → String
  | .null => "null"
  | .bool true => "true"
  | .bool false => "false"
  | .int n => toString n
  | .real text => text
  | .str s => quote s
  | .arr items => "[" ++ Text.joinWith "," (compactItems items) ++ "]"
  | .obj members => "\x7b" ++ Text.joinWith "," (compactMembers members) ++ "\x7d"
  | .foreign => "null"

def compactItems : List Json → List String
  | [] => []
  | j :: js => compact j :: compactItems js

def compactMembers : List (String × Json) → List String
  | [] => []
  | (key, j) :: ms => (quote key ++ ":" ++ compact j) :: compactMembers ms

end

end Fabric.Json
