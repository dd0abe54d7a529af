/-!
Depth-first search of a finite graph that is given by the successors of its nodes: the order in
which nodes are left, the first cycle class that is left, and an order that follows the edges.
-/

namespace Fabric

/-- Where a search stands: the nodes it has entered, and those it has left, in that order. -/
structure Search (α : Type) where
  entered : List α
  left : List α

namespace Search

variable {α : Type} [DecidableEq α]

def start : Search α := ⟨[], []⟩

/-- Enters a node unless it was entered before, visits its successors in order and leaves it. The
first argument bounds the nodes on a path. -/
def visit (next : α → List α) : Nat → Search α → α → Search α
  | 0, s, _ => s
  | depth + 1, s, a =>
    if a ∈ s.entered then s
    else
      let s := (next a).foldl (visit next depth) { s with entered := a :: s.entered }
      { s with left := s.left ++ [a] }

end Search

variable {α : Type} [DecidableEq α]

/-- The given nodes and what they reach, in the order in which a search leaves them. -/
def leavingOrder (next : α → List α) (nodes : List α) : List α :=
  (nodes.foldl (Search.visit next (nodes.length + 1)) .start).left

/-- The nodes to which a path leads from `a` in a graph with the given nodes. -/
def reachable (next : α → List α) (nodes : List α) (a : α) : List α :=
  (Search.visit next (nodes.length + 1) .start a).entered

/-- The nodes that reach `a` and are reached by it, in the order of `nodes`. -/
def cycleClass (next : α → List α) (nodes : List α) (a : α) : List α :=
  let below := reachable next nodes a
  nodes.filter fun b => below.contains b && (reachable next nodes b).contains a

/-- The first class of several nodes on common cycles of which a search leaves the last node. -/
def firstCycle (next : α → List α) (nodes : List α) : Option (List α) :=
  let order := leavingOrder next nodes
  (order.find? fun a =>
    let members := cycleClass next order a
    decide (1 < members.length) && members.getLast? = some a).map (cycleClass next order)

def respects (next : α → List α) : List α → Bool
  | [] => true
  | a :: rest => rest.all (fun b => !(next b).contains a) && respects next rest

/-- The nodes, each before its successors, if there is such an order. -/
def callersFirst (next : α → List α) (nodes : List α) : Option (List α) :=
  let order := (leavingOrder next nodes).reverse
  if respects next order then some order else none

end Fabric
