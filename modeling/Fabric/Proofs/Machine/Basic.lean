import Fabric.Hardware.Component

/-!
What a state machine does. A state runs its body when it is entered, lets its wait cycles pass and
then follows its transition; a transition that waits for a condition stays in its state until the
condition holds. Variables change at once. The values that are driven on signals are kept, and so
is a record of the invocations that were started.
-/

namespace Fabric

/-- A meaning of constants, operators and conversions in a type of values. -/
structure Interpretation (V : Type) where
  bool : Bool → V
  int : Int64 → HwType → V
  unary : HwUnaryOp → V → V
  binary : HwBinaryOp → V → V → HwType → V
  index : V → V → V
  /-- An array with one cell replaced. -/
  update : V → V → V → V
  resize : V → HwType → HwType → V
  truth : V → Bool

abbrev Started (V : Type) := String × (String → Option V)

structure Memory (V : Type) where
  values : String → V
  /-- The value that was driven last on each signal. -/
  driven : SignalRef → Option V
  /-- The invocations in the order in which they were started. -/
  started : List (Started V)

variable {V ι κ : Type} (I : Interpretation V)

def HwExpr.eval (inputs : SignalRef → V) (values : String → V) : HwExpr → V
  | .bool value => I.bool value
  | .int value type => I.int value type
  | .variable name => values name
  | .signal s => inputs s
  | .unary op operand => I.unary op (operand.eval inputs values)
  | .binary op lhs rhs type =>
    I.binary op (lhs.eval inputs values) (rhs.eval inputs values) type
  | .index array i => I.index (array.eval inputs values) (i.eval inputs values)
  | .resize operand source target => I.resize (operand.eval inputs values) source target

namespace Memory

def setVariable (m : Memory V) (name : String) (value : V) : Memory V :=
  { m with values := fun x ↦ if x = name then value else m.values x }

def arguments (m : Memory V) (target : String) (slot : UInt32) : String → Option V :=
  fun name ↦ m.driven (.invocation target slot (.parameter name))

/-- Drives a signal. Raising the start signal of a slot starts an invocation. -/
def drive (m : Memory V) (signal : SignalRef) (value : V) : Memory V :=
  { m with
    driven := fun s ↦ if s = signal then some value else m.driven s
    started :=
      match signal with
      | .invocation target slot .started =>
        if I.truth value then m.started ++ [(target, m.arguments target slot)] else m.started
      | _ => m.started }

end Memory

namespace HwStmt

mutual

def exec (inputs : SignalRef → V) : HwStmt → Memory V → Memory V
  | .assign (.variable name) value, m => m.setVariable name (value.eval I inputs m.values)
  | .assign (.element array index) value, m =>
    m.setVariable array (I.update (m.values array) (index.eval I inputs m.values)
      (value.eval I inputs m.values))
  | .assign (.signal signal) value, m => m.drive I signal (value.eval I inputs m.values)
  | .branch condition thenBody elseBody, m =>
    if I.truth (condition.eval I inputs m.values) then execAll inputs thenBody m
    else execAll inputs elseBody m
  | .comment _, m => m

def execAll (inputs : SignalRef → V) : List HwStmt → Memory V → Memory V
  | [], m => m
  | s :: ss, m => execAll inputs ss (exec inputs s m)

end

theorem execAll_append (inputs : SignalRef → V) (a b : List HwStmt) (m : Memory V) :
    execAll I inputs (a ++ b) m = execAll I inputs b (execAll I inputs a m) := by
  induction a generalizing m with
  | nil => rfl
  | cons s ss ih => simpa only [List.cons_append, execAll] using ih _

end HwStmt

def Transition.next (holds : HwExpr → Bool) (here : ι) : Transition ι → ι
  | .goto next => next
  | .branch condition ifTrue ifFalse => if holds condition then ifTrue else ifFalse
  | .waitFor condition next => if holds condition then next else here

abbrev Machine (ι : Type) := ι → Option (State ι)

structure Configuration (ι V : Type) where
  state : ι
  /-- The wait cycles that have passed in the state. -/
  waited : Nat
  memory : Memory V

def Machine.tick (M : Machine ι) (inputs : SignalRef → V) (c : Configuration ι V) :
    Configuration ι V :=
  match M c.state with
  | none => c
  | some s =>
    let m := if c.waited = 0 then HwStmt.execAll I inputs s.body c.memory else c.memory
    if c.waited < s.waitCycles.toNat then ⟨c.state, c.waited + 1, m⟩
    else ⟨s.transition.next (fun e ↦ I.truth (e.eval I inputs m.values)) c.state, 0, m⟩

/-- The configurations of a machine in all cycles, under inputs that may change in every cycle. -/
structure Execution (M : Machine ι) where
  inputs : Nat → SignalRef → V
  config : Nat → Configuration ι V
  step : ∀ n, config (n + 1) = M.tick I (inputs n) (config n)

def Component.machine (c : Component) : Machine StateId :=
  fun id ↦ c.states[id.toNat]?

def State.rename (f : ι → κ) (s : State ι) : State κ :=
  ⟨f s.id, s.label, s.body, s.waitCycles, s.transition.map f⟩

@[simp]
theorem Transition.next_map (f : ι → κ) (holds : HwExpr → Bool) (here : ι) (t : Transition ι) :
    (t.map f).next holds (f here) = f (t.next holds here) := by
  cases t <;> simp only [Transition.map, Transition.next] <;> split <;> rfl

end Fabric
