import Fabric.Text.Lines

/-!
Indented text as a sequence of steps: lines, comments, and changes of the indentation.
-/

namespace Fabric.Vhdl

inductive Step
  | line (text : String)
  | comment (text : String)
  | blank
  | indent
  | dedent
deriving DecidableEq, Repr

def indented (body : List Step) : List Step :=
  .indent :: (body ++ [.dedent])

def indentation (depth : Nat) : String :=
  String.ofList (List.replicate (2 * depth) ' ')

def lineAt (depth : Nat) (text : String) : String :=
  if text.isEmpty then "\n" else indentation depth ++ text ++ "\n"

/-- The texts that the steps write, from a depth on. A comment is marked on every line of it. -/
def layoutLines (depth : Nat) : List Step → List String
  | [] => []
  | .line text :: rest => lineAt depth text :: layoutLines depth rest
  | .comment text :: rest =>
    (Text.lines text).map (fun part => lineAt depth ("-- " ++ part)) ++ layoutLines depth rest
  | .blank :: rest => "\n" :: layoutLines depth rest
  | .indent :: rest => layoutLines (depth + 1) rest
  | .dedent :: rest => layoutLines (depth - 1) rest

def layout (steps : List Step) : String :=
  String.join (layoutLines 0 steps)

end Fabric.Vhdl
