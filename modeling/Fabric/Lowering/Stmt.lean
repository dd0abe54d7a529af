import Fabric.Lowering.Call

/-!
Statements as states. What follows a `return`, `break` or `continue` in the same block is not
reached and is left out. The exits of a loop are linked when the loop is done. A parallel invocation
makes copies of one call that differ in the value of an index and run in one batch: the `i`th copy uses
slot `i`, and its result goes to cell `i` of the array of results.
-/

namespace Fabric

namespace Lowering

variable (l : Lowering)

/-- The calls for the indices from `first` on, as many as `count`. The index is bound to each in
turn. -/
def copies (h : MemberHandle) (group : NodeId) (args : List Expr) (index : String)
    (first : Nat) : Nat → Draft → Synthesis (List Invocation × Draft)
  | 0, d => .ok ([], d)
  | count + 1, d => do
    let value := HwExpr.int (Int64.ofNat first) (.signed 32)
    let (call, d) ← l.invocation h group args (d.bind index (.constant value (.signed 32)))
    let (calls, d) ← copies h group args index (first + 1) count d
    return (call :: calls, d)

/-- The array for the results: the variable of that name, or a new one. -/
def resultArray (h : MemberHandle) (results : String) (count : UInt32) (d : Draft) :
    Synthesis ((String × HwType) × Draft) := do
  match d.binding? results with
  | some (.variable name (.array element _)) => return ((name, element), d)
  | some _ => l.unsupported ("parallel results stored in non-array `" ++ results ++ "`")
  | none =>
    let callee := l.program.tree.memberFullName h
    let element ← l.require ("results of void `" ++ callee ++ "`") (← l.resultType h)
    let length :=
      (l.program.arrays.get? (memberArrayKey d.frame.member results)).getD count
    let type := HwType.array element length
    let (name, d) := d.declare results type ("results of " ++ callee)
    return ((name, element), d.bind results (.variable name type))

def storeResults (array : String) (element : HwType) (values : List (Option Lowered)) (d : Draft) :
    Draft :=
  values.zipIdx.foldl (fun d (value, i) =>
    match value with
    | some v =>
      d.push (.assign (.element array (.int (Int64.ofNat i) (.signed 32))) (v.coerce element))
    | none => d) d

/-- Runs the copies of a call and stores their results if they are wanted. -/
def parallel (group : NodeId) (count : Expr) (index : String) (call : Expr)
    (results : Option String) (d : Draft) : Synthesis Draft := do
  let copies ← l.require "parallel invoke with a non-constant count" count.copies
  let (h, args) ← l.callee call
  if l.plan.isInlined h then
    .error (.inconsistent ("parallel target " ++ l.program.tree.memberFullName h
      ++ " was inlined"))
  let outer := d.frame.locals
  let (batch, d) ← l.copies h group args index 0 copies.toNat d
  let (values, d) := (d.withLocals outer).handshake batch
  match results with
  | none => return d
  | some results =>
    let ((array, element), d) ← l.resultArray h results copies d
    return storeResults array element values d

end Lowering

namespace Draft

/-- Leaves the member at hand: for the last state, or for what follows an expanded call. -/
def leave (d : Draft) : Draft :=
  let d := d.setTransition d.current (.goto .finished)
  let returns := if d.frame.isExpanded then d.frame.returns ++ [d.current] else d.frame.returns
  { d with frame := { d.frame with returns := returns }, isClosed := true }

def exit? (d : Draft) : Option Nat :=
  if d.isClosed then none else some d.current

end Draft

namespace Lowering

variable (l : Lowering) (expand : Expansion)

/-- Evaluates a value for a place of the given type. A new array is all zeroes. -/
def value (e : Expr) (type : HwType) (d : Draft) : Synthesis (Lowered × Draft) :=
  match e, type with
  | .newArray _ _ _, .array _ _ => .ok (.free (.int 0 type) type, d)
  | _, _ => do l.expr e (← l.prepare expand e d)

def condition (e : Expr) (d : Draft) : Synthesis (HwExpr × Draft) := do
  let (v, d) ← l.expr e (← l.prepare expand e d)
  return (v.coerce .boolean, d.reserve v.cost)

def declare (name : String) (type : TypeRef) (init : Option Expr) (d : Draft) :
    Synthesis Draft := do
  let type ← l.localType d type name
  match init with
  | none =>
    let (variableName, d) := d.declare name type ("local " ++ name)
    return d.bind name (.variable variableName type)
  | some e =>
    let (v, d) ← l.value expand e type d
    v.checkCoerce type
    let (variableName, d) := d.declare name type ("local " ++ name)
    let d := d.bind name (.variable variableName type)
    return d.emit (.setVariable variableName (v.coerce type)) v.cost

def assign (target : AssignTarget) (e : Expr) (d : Draft) : Synthesis Draft := do
  match target with
  | .toLocal name | .toParameter name =>
    match ← l.lookup d name with
    | .variable variableName type =>
      let (v, d) ← l.value expand e type d
      v.checkCoerce type
      return d.emit (.setVariable variableName (v.coerce type)) v.cost
    | .constant _ _ => l.unsupported ("assignment to `" ++ name ++ "`")
  | .toField f =>
    l.unsupported ("assignment to field `" ++ f.declaringType ++ "." ++ f.name ++ "`")

def arrayName : Expr → Synthesis String
  | .getLocal _ name | .getParameter _ name => .ok name
  | _ => l.unsupported "store into an array that is not a local or parameter"

def store (array index value : Expr) (d : Draft) : Synthesis Draft := do
  let name ← l.arrayName array
  match ← l.lookup d name with
  | .variable variableName (.array element _) =>
    let d ← l.prepare expand index d
    let d ← l.prepare expand value d
    let (i, d) ← l.expr index d
    let (v, d) ← l.expr value d
    let cost ← l.cost .index i.type none
    v.checkCoerce element
    return d.emit (.assign (.element variableName i.expr) (v.coerce element))
      (cost + max i.cost v.cost)
  | _ => l.unsupported ("element store into non-array `" ++ name ++ "`")

def ret (value : Option Expr) (d : Draft) : Synthesis Draft := do
  match value, d.frame.returnType with
  | some e, some type =>
    let target :=
      match d.frame.returnVariable with
      | some name => HwTarget.variable name
      | none => .signal (.own .result)
    let (v, d) ← l.value expand e type d
    v.checkCoerce type
    return (d.emit (.assign target (v.coerce type)) v.cost).leave
  | none, none => return d.leave
  | some e, none => return (← l.prepare expand e d).leave
  | none, some _ => l.unsupported "`return` without a value"

def eval (e : Expr) (d : Draft) : Synthesis Draft := do
  let d ← l.prepare expand e d
  if d.isEvaluated e then return d
  let (_, d) ← l.expr e d
  return d

def exitLoop (construct : String) (record : LoopExits → Nat → LoopExits) (d : Draft) :
    Synthesis Draft :=
  match d.loops with
  | [] => l.unsupported construct
  | exits :: rest =>
    .ok { d with loops := record exits d.current :: rest, isClosed := true }

mutual

def stmt (s : Stmt) (d : Draft) : Synthesis Draft :=
  if d.isClosed then .ok d
  else
    match s with
    | .declare _ name type init => l.declare expand name type init d
    | .assign _ target value => l.assign expand target value d
    | .store _ array index value => l.store expand array index value d
    | .branch _ condition thenBranch elseBranch => do
      let (c, d) ← l.condition expand condition d
      let source := d.current
      let thenState := d.nextState
      let d ← stmt thenBranch ((d.addState "if: then").enter thenState)
      let thenExit := d.exit?
      let (elseState, elseExit, d) ← elseStmt elseBranch d
      let join := d.nextState
      let d := (d.addState "if: join").setTransition source
        (.branch c (.state thenState) (.state (elseState.getD join)))
      let d := (d.linkAll (thenExit.toList ++ elseExit.toList) join).enter join
      return { d with isClosed := elseState.isSome && thenExit.isNone && elseExit.isNone }
    | .whileLoop _ condition body => do
      let d := d.openState "loop: head"
      let head := d.current
      let (c, d) ← l.condition expand condition d
      let source := d.current
      let bodyState := d.nextState
      let d := (d.addState "loop: body").enter bodyState
      let d ← stmt body { d with loops := ⟨[], []⟩ :: d.loops }
      match d.loops with
      | [] => .error (.inconsistent "loop exits missing")
      | exits :: loops =>
        let d := { d with loops := loops }.linkAll (d.exit?.toList ++ exits.continues) head
        let exit := d.nextState
        let d := (d.addState "loop: exit").setTransition source
          (.branch c (.state bodyState) (.state exit))
        return (d.linkAll exits.breaks exit).enter exit
    | .forLoop _ init condition step body => do
      let d ← stmtOption init d
      if d.isClosed then return d
      let d := d.openState "loop: head"
      let head := d.current
      let (c, d) ←
        match condition with
        | some e => do
          let (c, d) ← l.condition expand e d
          pure (some c, d)
        | none => pure (none, d)
      let source := d.current
      let bodyState := d.nextState
      let d := (d.addState "loop: body").enter bodyState
      let d ← stmt body { d with loops := ⟨[], []⟩ :: d.loops }
      match d.loops with
      | [] => .error (.inconsistent "loop exits missing")
      | exits :: loops =>
        let bodyExits := d.exit?.toList ++ exits.continues
        let (again, d) ← stepStmt step head { d with loops := loops }
        let d := d.linkAll bodyExits again
        let exit := d.nextState
        let d := (d.addState "loop: exit").setTransition source
          (match c with
            | some c => .branch c (.state bodyState) (.state exit)
            | none => .goto (.state bodyState))
        return (d.linkAll exits.breaks exit).enter exit
    | .ret _ value => l.ret expand value d
    | .eval _ e => l.eval expand e d
    | .block _ stmts => stmtList stmts d
    | .breakLoop _ =>
      l.exitLoop "`break` outside a loop" (fun x i => { x with breaks := x.breaks ++ [i] }) d
    | .continueLoop _ =>
      l.exitLoop "`continue` outside a loop"
        (fun x i => { x with continues := x.continues ++ [i] }) d
    | .parallel id count index call results => l.parallel id count index call results d

def stmtOption (s : Option Stmt) (d : Draft) : Synthesis Draft :=
  match s with
  | none => .ok d
  | some s => stmt s d

def stmtList (ss : List Stmt) (d : Draft) : Synthesis Draft :=
  match ss with
  | [] => .ok d
  | s :: ss => do stmtList ss (← stmt s d)

/-- The other branch of a conditional: its first state, and the one in which it ends. -/
def elseStmt (s : Option Stmt) (d : Draft) : Synthesis (Option Nat × Option Nat × Draft) :=
  match s with
  | none => .ok (none, none, d)
  | some s => do
    let first := d.nextState
    let d ← stmt s ((d.addState "if: else").enter first)
    return (some first, d.exit?, d)

/-- The step of a loop, which leads back to its head. Gives the state to continue with. -/
def stepStmt (s : Option Stmt) (head : Nat) (d : Draft) : Synthesis (Nat × Draft) :=
  match s with
  | none => .ok (head, d)
  | some s => do
    let first := d.nextState
    let d ← stmt s ((d.addState "loop: step").enter first)
    return (first, d.linkAll d.exit?.toList head)

end

end Lowering

end Fabric
