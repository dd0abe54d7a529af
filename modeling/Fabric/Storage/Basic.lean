import Fabric.Text.Lines

/-!
Access to files, and their paths. What works on files takes its access as an argument, so that it works
on a disk and on a value that stands for one. The names of a path are followed one after another, from
the root or from the working folder.
-/

namespace Fabric

inductive Reading
  | content (bytes : List UInt8)
  | missing
  | failed
deriving DecidableEq, Repr

/-- Files by their paths. Operations that change them tell whether they succeeded. -/
structure Storage (m : Type → Type) where
  read : String → m Reading
  /-- Makes a folder and those above it. -/
  makeFolder : String → m Bool
  /-- Makes a file or replaces its content. -/
  write : String → List UInt8 → m Bool
  rename : String → String → m Bool

def Storage.lift {m n : Type → Type} (f : {α : Type} → m α → n α) (s : Storage m) :
    Storage n where
  read path := f (s.read path)
  makeFolder path := f (s.makeFolder path)
  write path content := f (s.write path content)
  rename source target := f (s.rename source target)

def inFolder (folder name : String) : String :=
  if folder.isEmpty || folder.endsWith "/" then folder ++ name else folder ++ "/" ++ name

structure Path where
  isAbsolute : Bool
  parts : List String
deriving DecidableEq, Repr

namespace Path

/-- The longest path and the longest name in it, in bytes. -/
def pathLimit : Nat := 4095

def nameLimit : Nat := 255

def ofText? (s : String) : Option Path :=
  if pathLimit < s.utf8ByteSize then none
  else some ⟨s.startsWith "/", Text.split '/' s⟩

def isIdle (part : String) : Bool :=
  part = "" || part = "."

def trimmed (parts : List String) : List String :=
  (parts.reverse.dropWhile isIdle).reverse

def isEmpty (p : Path) : Bool :=
  !p.isAbsolute && (trimmed p.parts).isEmpty

def parent (p : Path) : Path :=
  { p with parts := trimmed (trimmed p.parts).dropLast }

end Path

end Fabric
