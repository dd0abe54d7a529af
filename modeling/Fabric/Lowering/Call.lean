import Fabric.Lowering.Expr
import Fabric.Lowering.Handshake
import Fabric.Lowering.Pending

/-!
Calls. All calls that are ready run in one batch, and their results are kept for the expression
around them. A member that the plan marks is expanded in place: its parameters become variables, and
its returns lead to the state after the call. A guarded expression becomes a branch.
-/

namespace Fabric

/-- An argument: the name and the type of its parameter, and its value. -/
structure Argument where
  name : String
  type : HwType
  value : Lowered

def checkArguments (arguments : List Argument) : Synthesis Unit :=
  arguments.forM fun a => a.value.checkCoerce a.type

abbrev Expansion := MemberHandle → List Expr → Draft → Synthesis (Option Lowered × Draft)

namespace Draft

/-- Computes arguments that take time into temporaries, so that the start of a call only drives
pins. -/
def settleArguments (callee : String) : List Argument → Draft → List (String × HwExpr) × Draft
  | [], d => ([], d)
  | a :: rest, d =>
    let (value, d) :=
      if a.value.cost > 0 then
        let (name, d) := d.temporary a.type ("argument " ++ a.name ++ " of " ++ callee)
        (HwExpr.variable name, d.emit (.setVariable name (a.value.coerce a.type)) a.value.cost)
      else (a.value.coerce a.type, d)
    let (values, d) := settleArguments callee rest d
    ((a.name, value) :: values, d)

/-- Declares the parameters of an expanded call and sets them to the arguments. -/
def bindArguments (callee : String) (d : Draft) (arguments : List Argument) : Draft :=
  arguments.foldl (fun d a =>
    let (name, d) := d.declare a.name a.type ("parameter " ++ a.name ++ " of " ++ callee)
    (d.emit (.setVariable name (a.value.coerce a.type)) a.value.cost).bind a.name
      (.variable name a.type)) d

/-- The frame of an expanded call in place of the one at hand. -/
def enterCall (d : Draft) (callee simpleName : String) (returnType : Option HwType)
    (returnVariable : Option String) : Draft :=
  let number := d.expansions + 1
  { d with
    expansions := number
    frame :=
      { member := callee, qualifier := simpleName ++ "." ++ toString number ++ ".", locals := []
        returnType := returnType, returnVariable := returnVariable, isExpanded := true
        returns := [] } }

/-- Goes on after an expanded call in the frame around it. If the open state is the only exit, it
stays open. -/
def leaveCall (d : Draft) (callee : String) (outer : Frame) : Draft :=
  let exits := d.frame.returns ++ if d.isClosed then [] else [d.current]
  let d := { d with frame := outer }
  if exits = [d.current] then
    { d.setTransition d.current (.goto .finished) with isClosed := false }
  else
    let join := d.nextState
    ((d.addState ("return from " ++ callee)).linkAll exits join).enter join

end Draft

namespace Lowering

variable (l : Lowering)

/-- The member that a call expression calls, and the arguments. -/
def callee : Expr → Synthesis (MemberHandle × List Expr)
  | .call _ target args => do
    let h ← l.require ("call to unknown member `" ++ target.declaringType ++ "." ++ target.name
      ++ "`") (l.program.tree.resolveCall target)
    return (h, args)
  | _ => .error (.inconsistent "expected a call expression")

/-- Evaluates arguments against the parameters of a member. -/
def evalArguments (callee : String) :
    List (Parameter × Expr) → Draft → Synthesis (List Argument × Draft)
  | [], d => .ok ([], d)
  | (p, e) :: rest, d => do
    let type ← l.parameterType callee p
    let (value, d) ← l.expr e d
    let (arguments, d) ← evalArguments callee rest d
    return (⟨p.name, type, value⟩ :: arguments, d)

def arguments (h : MemberHandle) (args : List Expr) (d : Draft) :
    Synthesis (List Argument × Draft) :=
  let callee := l.program.tree.memberFullName h
  let parameters := (l.program.tree.method h).parameters
  if parameters.length ≠ args.length then
    l.unsupported ("call to `" ++ callee ++ "` with " ++ toString args.length ++ " arguments")
  else l.evalArguments callee (parameters.zip args) d

/-- Takes the next of the slots that are planned for calls of a statement to a member. -/
def takeSlot (group : NodeId) (callee : String) (d : Draft) : Synthesis (UInt32 × Draft) :=
  let limit := (l.member.invocations.get? callee).getD 0
  let slot := (d.slots.lookup (group, callee)).getD 0
  if limit ≤ slot then
    .error (.inconsistent (l.member.fullName ++ ": call to " ++ callee ++ " needs slot "
      ++ toString slot.toNat ++ " but only " ++ toString limit.toNat ++ " were planned"))
  else .ok (slot, { d with slots := ((group, callee), slot + 1) :: d.slots })

def invocation (h : MemberHandle) (group : NodeId) (args : List Expr) (d : Draft) :
    Synthesis (Invocation × Draft) := do
  let callee := l.program.tree.memberFullName h
  let (slot, d) ← l.takeSlot group callee d
  let (arguments, d) ← l.arguments h args d
  checkArguments arguments
  let (values, d) := d.settleArguments callee arguments
  return (⟨callee, slot, values, ← l.resultType h⟩, d)

/-- Expands the calls among the given ones that are expanded, and gathers the others. -/
def gather (expand : Expansion) :
    List Expr → Draft → Synthesis (List (NodeId × Invocation) × Draft)
  | [], d => .ok ([], d)
  | e :: rest, d => do
    let (h, args) ← l.callee e
    if l.plan.isInlined h then
      let (value, d) ← expand h args d
      gather expand rest (d.setResult e.id value)
    else
      match l.program.callGroup e.id with
      | none => .error (.inconsistent "call outside any statement")
      | some group =>
        let (call, d) ← l.invocation h group args d
        let (calls, d) ← gather expand rest d
        return ((e.id, call) :: calls, d)

def invoke (expand : Expansion) (calls : List Expr) (d : Draft) : Synthesis Draft := do
  let (batch, d) ← l.gather expand calls d
  if batch.isEmpty then return d
  let (values, d) := d.handshake (batch.map Prod.snd)
  return ((batch.map Prod.fst).zip values).foldl (fun d (id, value) => d.setResult id value) d

/-- Expands a call of a member, whose body is lowered as given. -/
def expand (body : Stmt → Draft → Synthesis Draft) : Expansion := fun h args d => do
  let m := l.program.tree.method h
  let callee := l.program.tree.memberFullName h
  let code ← l.require ("call to `" ++ callee ++ "` without a body") m.body
  let (arguments, d) ← l.arguments h args d
  let returnType ← l.resultType h
  checkArguments arguments
  let (value, d) :=
    match returnType with
    | some type =>
      let (name, d) := d.temporary type ("value returned by " ++ callee)
      (some (name, type), d)
    | none => (none, d)
  let outer := d.frame
  let d := d.enterCall callee (String.ofList (simpleName m.name.toList)) returnType
    (value.map Prod.fst)
  let d ← body code (d.bindArguments callee arguments)
  return (value.map fun (name, type) => .ofVariable name type, d.leaveCall callee outer)

/-- Evaluates an expression and stores it in a variable. -/
def storeIn (name : String) (type : HwType) (prepare : Expr → Draft → Synthesis Draft) (e : Expr)
    (d : Draft) : Synthesis Draft := do
  let d ← prepare e d
  let (v, d) ← l.expr e d
  v.checkCoerce type
  return d.emit (.setVariable name (v.coerce type)) v.cost

/-- Evaluates a guarded expression whose deciding operand is evaluated: the other operands are
evaluated in states of their own. -/
def guarded (prepare : Expr → Draft → Synthesis Draft) (e : Expr) (d : Draft) :
    Synthesis Draft := do
  match e with
  | .conditional id condition ifTrue ifFalse =>
    let type ← l.infer d e
    let (name, d) := d.temporary type "conditional value"
    let (c, d) ← l.expr condition d
    let d := d.reserve c.cost
    let source := d.current
    let trueState := d.nextState
    let d ← l.storeIn name type prepare ifTrue
      ((d.addState "conditional: true").enter trueState)
    let trueExit := d.current
    let falseState := d.nextState
    let d ← l.storeIn name type prepare ifFalse
      ((d.addState "conditional: false").enter falseState)
    let falseExit := d.current
    let join := d.nextState
    let d := (d.addState "conditional: join").setTransition source
      (.branch (c.coerce .boolean) (.state trueState) (.state falseState))
    let d := (d.linkAll [trueExit, falseExit] join).enter join
    return d.setResult id (some (.ofVariable name type))
  | .binary id op lhs rhs =>
    let (name, d) := d.temporary .boolean "short-circuit value"
    let (left, d) ← l.expr lhs d
    let d := d.emit (.setVariable name (left.coerce .boolean)) left.cost
    let source := d.current
    let rightState := d.nextState
    let d ← l.storeIn name .boolean prepare rhs
      ((d.addState "evaluate right operand").enter rightState)
    let rightExit := d.current
    let join := d.nextState
    let (ifTrue, ifFalse) := if op = .logicAnd then (rightState, join) else (join, rightState)
    let d := (d.addState "short-circuit join").setTransition source
      (.branch (.variable name) (.state ifTrue) (.state ifFalse))
    let d := (d.link rightExit join).enter join
    return d.setResult id (some (.ofVariable name .boolean))
  | _ => .error (.inconsistent "expected a guarded expression")

/-- Evaluates what is ready in an expression until nothing is, in at most the given number of
rounds. -/
def prepareUpTo (expand : Expansion) : Nat → Expr → Draft → Synthesis Draft
  | 0, _, d => .ok d
  | rounds + 1, e, d =>
    match d.ready e with
    | ⟨[], none⟩ => .ok d
    | ⟨[], some g⟩ => do
      prepareUpTo expand rounds e (← l.guarded (prepareUpTo expand rounds) g d)
    | ⟨calls, _⟩ => do prepareUpTo expand rounds e (← l.invoke expand calls d)

/-- Evaluates all calls in an expression. Every round evaluates one of its nodes. -/
def prepare (expand : Expansion) (e : Expr) (d : Draft) : Synthesis Draft :=
  l.prepareUpTo expand (e.nodes.length + 1) e d

end Lowering

end Fabric
