import Fabric.Config.Canonical
import Fabric.Packed.Tree
import Fabric.Resolution.Basic
import Fabric.Syntax.Parents
import Fabric.Synthesis.Error
import Fabric.Timing.Model

/-!
A program that is ready for synthesis: its tree with constants folded, the lengths of its arrays and the
latencies of the device it is for. The identity of a request depends on the tree and on the canonical
form of the configuration only.

Entry points are the members that can be started from outside. A member is one if it implements a member
of an interface explicitly, or if it is a public member of a public class and virtual or named like a
member of one of the interfaces of the class.
-/

namespace Fabric

/-- The version that is part of every identity and of every stored description. -/
def version : String := "0.1.0"

def SyntaxTree.identityParts (version : String) (t : SyntaxTree) (c : Config) :
    List (List UInt8) :=
  [Text.utf8 version, t.digest.bytes, Text.utf8 c.canonicalText]

/-- The identity of the hardware made from a tree under a configuration. -/
def SyntaxTree.identity (t : SyntaxTree) (c : Config) : String :=
  (Digest.ofParts (identityParts version t c)).hex

structure Program where
  identity : String
  tree : SyntaxTree
  config : Config
  arrays : ArrayTable
  timing : TimingModel

namespace Program

def prepare (t : SyntaxTree) (c : Config) (identity : String) : Synthesis Program := do
  let timing ← (TimingModel.ofConfig c).mapError SynthesisError.ofTimingError
  let resolved ← (t.resolve c).mapError SynthesisError.ofResolveError
  return ⟨identity, resolved.tree, c, resolved.arrays, timing⟩

def callGroup (p : Program) (call : NodeId) : Option NodeId :=
  (ParentIndex.ofTree p.tree).enclosing call .statement

end Program

namespace SyntaxTree

/-- Whether an interface of the tree has a member with the name and the parameter types of `m`. -/
def implementsExplicitly (t : SyntaxTree) (interface : String) (m : MethodDecl) : Bool :=
  match t.resolveCall ⟨interface, m.name, m.parameterTypes⟩ with
  | some h => (t.declaringType h).kind = .interfaceType
  | none => false

/-- Whether an interface that the type lists has a member named like `m`. -/
def implementsByName (t : SyntaxTree) (d : TypeDecl) (m : MethodDecl) : Bool :=
  d.interfaces.any fun interface =>
    match t.findType? interface with
    | some found =>
      found.kind = .interfaceType
        && (nameAlternates m.name).any fun name => !(t.methodsNamed interface name).isEmpty
    | none => false

def isEntryPoint (t : SyntaxTree) (d : TypeDecl) (m : MethodDecl) : Bool :=
  m.body.isSome && d.kind ≠ .interfaceType &&
    match m.explicitInterface with
    | some interface => t.implementsExplicitly interface m
    | none =>
      m.modifiers.visibility = .pub && d.visibility = .pub && d.kind = .classType
        && (m.modifiers.isVirtual || t.implementsByName d m)

end SyntaxTree

namespace Program

/-- Whether the configuration admits a member as an entry point. -/
def admits (p : Program) (fullName : String) : Bool :=
  p.config.entryPointStarts.isEmpty
    || p.config.entryPointStarts.any fun start => start.toList.isPrefixOf fullName.toList

/-- The entry points that the configuration admits, in the order of their names. -/
def entryPoints (p : Program) : List MemberHandle :=
  let selected := p.tree.handles.filter fun h =>
    p.tree.isEntryPoint (p.tree.declaringType h) (p.tree.method h)
      && p.admits (p.tree.memberFullName h)
  selected.mergeSort fun a b => decide (p.tree.memberFullName a ≤ p.tree.memberFullName b)

end Program

end Fabric
