import Fabric.Resolution.Lengths

/-!
Resolution of a tree: constants are folded and array lengths inferred, in turns, until neither
changes anything.
-/

namespace Fabric

structure ResolvedTree where
  tree : SyntaxTree
  arrays : ArrayTable

/-- The number of fields, statements and expressions, an upper bound for the changes of either
kind. -/
def SyntaxTree.bodySize (t : SyntaxTree) : Nat :=
  t.initializerNodes.length + (t.types.flatMap TypeDecl.fields).length
    + (t.bodies.flatMap Stmt.nodes).length + (t.bodies.flatMap Stmt.exprNodes).length

namespace ResolvedTree

/-- At most `fuel` rounds; a round without changes is the last. -/
def rounds : Nat → ResolvedTree → Except ResolveError ResolvedTree
  | 0, r => .ok r
  | fuel + 1, r => do
    let (tree, folded) ← r.tree.fold.mapError .fault
    let (inferred, arrays) := tree.inferLengths r.arrays
    let inferred ← inferred
    let (tree, lengths) := tree.foldArrayLengths arrays
    if folded + inferred + lengths = 0 then .ok ⟨tree, arrays⟩
    else rounds fuel ⟨tree, arrays⟩

end ResolvedTree

/-- Resolves a tree whose names are distinct. Every round but the last replaces an expression or
adds a length, so there are at most twice as many rounds as nodes. -/
def SyntaxTree.resolve (t : SyntaxTree) (c : Config) : Except ResolveError ResolvedTree :=
  match t.checkNames with
  | .error e => .error (.index e)
  | .ok () => ResolvedTree.rounds (2 * t.bodySize + 2) ⟨t, .ofConfig c⟩

end Fabric
