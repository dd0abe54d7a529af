import Fabric.Syntax.Tree

/-!
Finding types and methods by name. A method is also known under alternates of its name: without the
qualification before the last point, and without a generic suffix. Type names and full member names
have to be distinct in a tree.

The index of a tree is made in one pass. The methods of a type are entered first under their own names,
and then under those alternates that are still free, so that an alternate never stands in front of a
method's own name.
-/

namespace Fabric

/-- The position of a method: that of its type in the tree and its own in the type. -/
structure MemberHandle where
  typePos : Nat
  methodPos : Nat
deriving DecidableEq, Repr, Inhabited

inductive IndexError
  | duplicateType (name : String)
  | duplicateMember (name : String)
deriving DecidableEq, Repr

def IndexError.message : IndexError → String
  | .duplicateType name => "duplicate type `" ++ name ++ "`"
  | .duplicateMember name => "duplicate member `" ++ name ++ "`"

def simpleName (cs : List Char) : List Char :=
  (cs.reverse.takeWhile (· ≠ '.')).reverse

def stripGeneric (cs : List Char) : List Char :=
  cs.takeWhile fun c => c ≠ '`' && c ≠ '<'

/-- Adds a name to a list, unless it is empty or already there. -/
def addName (names : List (List Char)) (name : List Char) : List (List Char) :=
  if name.isEmpty || names.contains name then names else names ++ [name]

/-- The names that a method is known under, its own first. -/
def nameAlternates (name : String) : List String :=
  let cs := name.toList
  let simple := simpleName cs
  (addName (addName (addName [cs] simple) (stripGeneric cs)) (stripGeneric simple)).map
    String.ofList

/-- The position of the first item that satisfies a condition. -/
def findPos {α : Type} (p : α → Bool) (items : List α) : Option Nat :=
  items.findIdx? p

namespace TypeDecl

/-- The position of the method that a name and parameter types denote: the method with that name,
or else the first one with that alternate. -/
def findMethod (t : TypeDecl) (name : String) (types : List TypeRef) : Option Nat :=
  (findPos (fun m => m.name = name && m.parameterTypes = types) t.methods).orElse fun _ =>
    findPos (fun m => m.parameterTypes = types && (nameAlternates m.name).contains name) t.methods

/-- The positions of the methods that share an alternate with a name. -/
def methodsNamed (t : TypeDecl) (name : String) : List Nat :=
  let names := nameAlternates name
  (t.methods.zipIdx.filter fun (m, _) =>
    (nameAlternates m.name).any fun alternate => names.contains alternate).map Prod.snd

end TypeDecl

namespace SyntaxTree

def declaringType (t : SyntaxTree) (h : MemberHandle) : TypeDecl :=
  t.types.getD h.typePos default

def method (t : SyntaxTree) (h : MemberHandle) : MethodDecl :=
  (t.declaringType h).methods.getD h.methodPos default

def memberFullName (t : SyntaxTree) (h : MemberHandle) : String :=
  (t.declaringType h).memberFullName (t.method h)

def handles (t : SyntaxTree) : List MemberHandle :=
  t.types.zipIdx.flatMap fun (d, i) =>
    (List.range d.methods.length).map fun j => ⟨i, j⟩

/-- The first text that also stands before it in the list. -/
def firstRepeated (seen : List String) : List String → Option String
  | [] => none
  | s :: rest => if seen.contains s then some s else firstRepeated (s :: seen) rest

/-- Checks types in order, each before its methods, for names that were there before. -/
def checkTypes : List String → List String → List TypeDecl → Except IndexError Unit
  | _, _, [] => .ok ()
  | types, members, t :: rest =>
    if types.contains t.fullName then .error (.duplicateType t.fullName)
    else
      let names := t.methods.map t.memberFullName
      match firstRepeated members names with
      | some name => .error (.duplicateMember name)
      | none => checkTypes (t.fullName :: types) (names ++ members) rest

def checkNames (t : SyntaxTree) : Except IndexError Unit :=
  checkTypes [] [] t.types

def typePosition (t : SyntaxTree) (fullName : String) : Option Nat :=
  findPos (fun d => d.fullName = fullName) t.types

/-- The method that a call denotes: of the alternates of its name, the first that some method of
the type has. -/
def resolveCall (t : SyntaxTree) (target : MemberRef) : Option MemberHandle := do
  let typePos ← t.typePosition target.declaringType
  let d ← t.types[typePos]?
  let methodPos ← (nameAlternates target.name).findSome? fun name =>
    d.findMethod name target.parameterTypes
  return ⟨typePos, methodPos⟩

def methodsNamed (t : SyntaxTree) (typeName name : String) : List MemberHandle :=
  match t.typePosition typeName with
  | none => []
  | some typePos => ((t.types.getD typePos default).methodsNamed name).map fun i => ⟨typePos, i⟩

def memberByFullName (t : SyntaxTree) (name : String) : Option MemberHandle :=
  t.handles.find? fun h => t.memberFullName h = name

def memberByNode (t : SyntaxTree) (id : NodeId) : Option MemberHandle :=
  t.handles.find? fun h => (t.method h).id = id

def memberCount (t : SyntaxTree) : Nat :=
  t.handles.length

end SyntaxTree

/-- A name under which a method of a type is known, with the types of its parameters. -/
structure Signature where
  typePos : Nat
  name : String
  parameterTypes : List TypeRef
deriving DecidableEq

/-- Methods by their signatures; of two entries with one signature the first counts. -/
abbrev Signatures := List (Signature × MemberHandle)

namespace Signatures

def insert (x : Signatures) (s : Signature) (h : MemberHandle) : Signatures :=
  (s, h) :: x

def insertIfNew (x : Signatures) (s : Signature) (h : MemberHandle) : Signatures :=
  if (x.lookup s).isSome then x else x ++ [(s, h)]

end Signatures

/-- The positions of types and the methods, by their full names, and the methods by their
signatures. -/
structure TypeIndex where
  types : List (String × Nat) := []
  members : List (String × MemberHandle) := []
  signatures : Signatures := []

namespace TypeIndex

def enterMethods (d : TypeDecl) (typePos : Nat) :
    List (MethodDecl × Nat) → TypeIndex → Except IndexError TypeIndex
  | [], x => .ok x
  | (m, i) :: rest, x =>
    let name := d.memberFullName m
    if (x.members.lookup name).isSome then .error (.duplicateMember name)
    else
      enterMethods d typePos rest
        { x with
          members := (name, ⟨typePos, i⟩) :: x.members
          signatures := x.signatures.insert ⟨typePos, m.name, m.parameterTypes⟩ ⟨typePos, i⟩ }

def enterAlternates (typePos : Nat) (x : Signatures) (entry : MethodDecl × Nat) : Signatures :=
  (nameAlternates entry.1.name).foldl
    (fun x name => x.insertIfNew ⟨typePos, name, entry.1.parameterTypes⟩ ⟨typePos, entry.2⟩) x

def enterType (x : TypeIndex) (entry : TypeDecl × Nat) : Except IndexError TypeIndex :=
  let (d, typePos) := entry
  if (x.types.lookup d.fullName).isSome then .error (.duplicateType d.fullName)
  else do
    let x ← enterMethods d typePos d.methods.zipIdx
      { x with types := (d.fullName, typePos) :: x.types }
    return { x with signatures := d.methods.zipIdx.foldl (enterAlternates typePos) x.signatures }

def build (t : SyntaxTree) : Except IndexError TypeIndex :=
  t.types.zipIdx.foldlM enterType {}

/-- The method that a call denotes: that of the first alternate of its name with an entry. -/
def resolveCall (x : TypeIndex) (target : MemberRef) : Option MemberHandle := do
  let typePos ← x.types.lookup target.declaringType
  (nameAlternates target.name).findSome? fun name =>
    x.signatures.lookup ⟨typePos, name, target.parameterTypes⟩

end TypeIndex

end Fabric
