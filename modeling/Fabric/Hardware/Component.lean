import Fabric.Hardware.Expr

/-!
Components: state machines with variables, pins, and slots through which they invoke other
components. State 0 waits to be started, state 1 is the first that works, and the last one reports
that the work is done.
-/

namespace Fabric

/-- How a state is left, to states of the type `ι`. -/
inductive Transition (ι : Type)
  | goto (next : ι)
  | branch (condition : HwExpr) (ifTrue ifFalse : ι)
  | waitFor (condition : HwExpr) (next : ι)
deriving BEq, DecidableEq, Repr, Inhabited

namespace Transition

variable {ι κ : Type}

def targets : Transition ι → List ι
  | .goto next => [next]
  | .branch _ ifTrue ifFalse => [ifTrue, ifFalse]
  | .waitFor _ next => [next]

def map (f : ι → κ) : Transition ι → Transition κ
  | .goto next => .goto (f next)
  | .branch condition ifTrue ifFalse => .branch condition (f ifTrue) (f ifFalse)
  | .waitFor condition next => .waitFor condition (f next)

def isWait : Transition ι → Bool
  | .waitFor _ _ => true
  | _ => false

end Transition

abbrev StateId := UInt32

/-- A state runs its body, lets `waitCycles` cycles pass and follows its transition. -/
structure State (ι : Type) where
  id : ι
  label : String
  body : List HwStmt
  waitCycles : UInt32
  transition : Transition ι
deriving BEq, Repr, Inhabited

structure Declaration where
  name : String
  type : HwType
  comment : Option String
deriving DecidableEq, Repr, Inhabited

structure ComponentPin where
  name : String
  type : HwType
deriving DecidableEq, Repr, Inhabited

/-- The slots through which a component invokes another one. -/
structure OutgoingInvocation where
  target : String
  slots : UInt32
deriving DecidableEq, Repr, Inhabited

structure Component where
  name : String
  parameters : List ComponentPin
  returnType : Option HwType
  declarations : List Declaration
  states : List (State StateId)
  invocations : List OutgoingInvocation
  instanceCount : UInt32
  worstCaseCycles : Option UInt64
deriving BEq, Repr, Inhabited

namespace Component

def idleState : StateId := 0

def finishedState (c : Component) : StateId :=
  UInt32.ofNat (c.states.length - 1)

def declaration? (c : Component) (name : String) : Option Declaration :=
  c.declarations.find? fun d => d.name = name

def Leads (c : Component) (a b : StateId) : Prop :=
  ∃ s, c.states[a.toNat]? = some s ∧ b ∈ s.transition.targets

/-- Longest paths to the last state that are already known. -/
abbrev Known := List (StateId × Nat)

/-- The cycles on the longest path from a state to the last one, if every path from it reaches the
last state without waiting for a signal. `stack` holds the states on the way, `known` the answers
so far. -/
def longestFrom (c : Component) : Nat → List StateId → Known → StateId → Option (Nat × Known)
  | 0, _, _, _ => none
  | fuel + 1, stack, known, state =>
    if state = c.finishedState then some (1, known)
    else
      match known.lookup state with
      | some n => some (n, known)
      | none =>
        if stack.contains state ∨ state = idleState then none
        else
          match c.states[state.toNat]? with
          | none => none
          | some current =>
            if current.transition.isWait then none
            else
              let visit (best : Nat × Known) (next : StateId) : Option (Nat × Known) := do
                let (n, known) ← c.longestFrom fuel (state :: stack) best.2 next
                return (max best.1 n, known)
              match current.transition.targets.foldlM visit (0, known) with
              | none => none
              | some (best, known) =>
                let total := best + 1 + current.waitCycles.toNat
                some (total, (state, total) :: known)

/-- The largest number of cycles that a run can take, if it is bounded. No path visits more states
than there are. -/
def computeWorstCaseCycles (c : Component) : Option Nat :=
  if c.states.length < 2 then none
  else (c.longestFrom (c.states.length + 1) [] [] 1).map Prod.fst

end Component

end Fabric
