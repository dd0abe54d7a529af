import Fabric.Calls.Plan
import Fabric.Hardware.Component

/-!
A state machine while it is made. One state is open: statements are added to it until the delay of
its longest path would pass a clock cycle, and then the next state is opened. An operation that
takes longer than a cycle has a state of its own, which is held for the cycles that it needs.
Branches, loops and calls close the open state.
-/

namespace Fabric

/-- Where a transition leads: to a state of the draft, or to the last state, which is added when
the draft is done. -/
inductive DraftTarget
  | state (index : Nat)
  | finished
deriving DecidableEq, Repr, Inhabited

inductive Binding
  | variable (name : String) (type : HwType)
  | constant (value : HwExpr) (type : HwType)
deriving Repr

def Binding.type : Binding → HwType
  | .variable _ type => type
  | .constant _ type => type

/-- An expression with its type and the delay of its longest path in clock cycles. -/
structure Lowered where
  expr : HwExpr
  type : HwType
  cost : Binary64

namespace Lowered

def free (expr : HwExpr) (type : HwType) : Lowered :=
  ⟨expr, type, 0⟩

def ofVariable (name : String) (type : HwType) : Lowered :=
  free (.variable name) type

end Lowered

/-- The member whose body is at hand: the member of the component, or one that is expanded in
it. -/
structure Frame where
  member : String
  /-- What the names of its variables start with. -/
  qualifier : String
  locals : List (String × Binding)
  returnType : Option HwType
  /-- The variable for the result of an expanded call. -/
  returnVariable : Option String
  isExpanded : Bool
  /-- The states in which an expanded call returns. -/
  returns : List Nat

/-- The states in which the innermost loop is left or continued. -/
structure LoopExits where
  breaks : List Nat
  continues : List Nat

structure Draft where
  states : List (State DraftTarget)
  /-- The open state. -/
  current : Nat
  /-- The delay that is spent in the open state. -/
  budget : Binary64
  /-- Whether control has left the open state. -/
  isClosed : Bool
  declarations : List Declaration
  frame : Frame
  loops : List LoopExits
  temporaries : Nat
  expansions : Nat
  /-- The next slot for calls of a statement to a member. -/
  slots : List ((NodeId × String) × UInt32)
  /-- The values of calls and guarded expressions that were evaluated; a call without a result has
  none. -/
  results : List (NodeId × Option Lowered)

namespace Draft

def empty (member : String) (returnType : Option HwType) : Draft where
  states := []
  current := 0
  budget := 0
  isClosed := false
  declarations := []
  frame := ⟨member, "", [], returnType, none, false, []⟩
  loops := []
  temporaries := 0
  expansions := 0
  slots := []
  results := []

/-- Adds a state that leads to the last one. Its number is the number of states before. -/
def addState (d : Draft) (label : String) : Draft :=
  { d with states := d.states ++ [⟨.state d.states.length, label, [], 0, .goto .finished⟩] }

def nextState (d : Draft) : Nat :=
  d.states.length

def modifyState (d : Draft) (index : Nat) (f : State DraftTarget → State DraftTarget) : Draft :=
  { d with states := d.states.modify index f }

def setTransition (d : Draft) (index : Nat) (t : Transition DraftTarget) : Draft :=
  d.modifyState index fun s => { s with transition := t }

def link (d : Draft) (source target : Nat) : Draft :=
  d.setTransition source (.goto (.state target))

def linkAll (d : Draft) (sources : List Nat) (target : Nat) : Draft :=
  sources.foldl (fun d source => d.link source target) d

def enter (d : Draft) (index : Nat) : Draft :=
  { d with current := index, budget := 0, isClosed := false }

/-- Adds a state that the open one leads to, and opens it. -/
def advance (d : Draft) (label : String) : Draft :=
  let next := d.nextState
  let added := d.addState label
  (if d.isClosed then added else added.link d.current next).enter next

def isFresh (d : Draft) : Bool :=
  (match d.states[d.current]? with
    | some s => s.body.isEmpty
    | none => false) && d.budget == 0

def isReusable (d : Draft) : Bool :=
  d.isFresh && (match d.states[d.current]? with
    | some s => s.waitCycles == 0
    | none => false)

/-- Opens a state with the given label: the open one if nothing is in it. -/
def openState (d : Draft) (label : String) : Draft :=
  if d.isReusable then d.modifyState d.current fun s => { s with label := label }
  else d.advance label

def push (d : Draft) (s : HwStmt) : Draft :=
  d.modifyState d.current fun state => { state with body := state.body ++ [s] }

def reserve (d : Draft) (cost : Binary64) : Draft :=
  if cost > 1 then
    let d := if d.isFresh then d else d.advance "state"
    let wait := UInt32.ofNat (cost.ceilWithin (twoPow 32 - 1)) - 1
    { d.modifyState d.current fun s => { s with waitCycles := wait } with budget := .infinity }
  else
    let d := if d.budget + cost > 1 then d.advance "state" else d
    { d with budget := d.budget + cost }

/-- Adds a statement whose longest path has the given delay. -/
def emit (d : Draft) (s : HwStmt) (cost : Binary64) : Draft :=
  (d.reserve cost).push s

def declaredType? (d : Draft) (name : String) : Option HwType :=
  (d.declarations.reverse.find? fun e => e.name = name).map Declaration.type

/-- Whether a variable of the given type can have the name. -/
def admits (d : Draft) (name : String) (type : HwType) : Bool :=
  match d.declaredType? name with
  | none => true
  | some declared => declared = type

def variant (base : String) : Nat → String
  | 0 => base
  | n => base ++ "." ++ toString n

/-- The first variant of a name from the `n`th on that a variable of the given type can have. The
first argument bounds the variants that are tried. -/
def firstVariant (d : Draft) (base : String) (type : HwType) : Nat → Nat → String
  | 0, n => variant base n
  | tries + 1, n =>
    if d.admits (variant base n) type then variant base n
    else d.firstVariant base type tries (n + 1)

def addDeclaration (d : Draft) (name : String) (type : HwType) (comment : String) : Draft :=
  { d with declarations := d.declarations ++ [⟨name, type, some comment⟩] }

/-- Declares a variable and gives its name. A name that has another type already gets a number;
there are more variants than declarations. -/
def declare (d : Draft) (name : String) (type : HwType) (comment : String) : String × Draft :=
  let chosen := d.firstVariant (d.frame.qualifier ++ name) type d.declarations.length 0
  match d.declaredType? chosen with
  | none => (chosen, d.addDeclaration chosen type comment)
  | some _ => (chosen, d)

def temporary (d : Draft) (type : HwType) (comment : String) : String × Draft :=
  let name := "temp." ++ toString d.temporaries
  (name, { d.addDeclaration name type comment with temporaries := d.temporaries + 1 })

def binding? (d : Draft) (name : String) : Option Binding :=
  d.frame.locals.lookup name

def withLocals (d : Draft) (locals : List (String × Binding)) : Draft :=
  { d with frame := { d.frame with locals := locals } }

def bind (d : Draft) (name : String) (binding : Binding) : Draft :=
  d.withLocals ((name, binding) :: d.frame.locals)

def result? (d : Draft) (id : NodeId) : Option (Option Lowered) :=
  d.results.lookup id

def isEvaluated (d : Draft) (e : Expr) : Bool :=
  (d.result? e.id).isSome

def setResult (d : Draft) (id : NodeId) (value : Option Lowered) : Draft :=
  { d with results := (id, value) :: d.results }

def complete (d : Draft) : List (State StateId) :=
  let last := d.states.length
  let done := (d.addState "finished").setTransition last
    (.waitFor (.unary .not (.signal (.own .started))) (.state 0))
  let done := done.modifyState last fun s =>
    { s with body := [.drive (.own .finished) (.bool true)] }
  let number : DraftTarget → StateId
    | .state index => UInt32.ofNat index
    | .finished => UInt32.ofNat last
  done.states.map fun s => ⟨number s.id, s.label, s.body, s.waitCycles, s.transition.map number⟩

end Draft

end Fabric
