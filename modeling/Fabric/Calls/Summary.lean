import Fabric.Resolution.Lengths
import Fabric.Synthesis.Program

/-!
The calls that members make. All calls to one member from one statement are taken to run at the same
time, and a parallel invocation of `n` copies counts `n` times. So a caller needs as many slots for
a callee as its largest group of calls to it.
-/

namespace Fabric

/-- Calls to one member that belong to one statement. -/
structure CallSite where
  group : NodeId
  callee : MemberHandle
  copies : UInt32
  isParallel : Bool

structure CallSummary where
  /-- The callees in the order of the tree, with the size of the largest group. -/
  callees : List (MemberHandle × UInt32)
  parallel : List MemberHandle

namespace CallSummary

def slots? (s : CallSummary) (callee : MemberHandle) : Option UInt32 :=
  s.callees.lookup callee

end CallSummary

def groupSize (sites : List CallSite) (group : NodeId) (callee : MemberHandle) : UInt32 :=
  ((sites.filter fun s => s.group = group ∧ s.callee = callee).map CallSite.copies).foldl
    (· + ·) 0

def largestGroup (sites : List CallSite) (callee : MemberHandle) : UInt32 :=
  (sites.map fun s => groupSize sites s.group callee).foldl max 0

/-- The number of copies that a parallel invocation starts, if it is a positive constant. -/
def Expr.copies (e : Expr) : Option UInt32 :=
  e.asCount.filter fun n => n ≠ 0

namespace Program

variable (p : Program) (member : String)

def resolveCallee (target : MemberRef) : Synthesis MemberHandle :=
  match p.tree.resolveCall target with
  | some callee => .ok callee
  | none =>
    .error (.unsupported ("call to unknown member `" ++ target.declaringType ++ "." ++ target.name
      ++ signatureSuffix target.parameterTypes ++ "`") member)

def exprSite (parents : ParentIndex) (statement : NodeId) : Expr → Synthesis (List CallSite)
  | .call id target _ => do
    let callee ← p.resolveCallee member target
    return [⟨(parents.enclosing id .statement).getD statement, callee, 1, false⟩]
  | _ => .ok []

def stmtSites (parents : ParentIndex) : Stmt → Synthesis (List CallSite)
  | .parallel id count _ call _ =>
    match count.copies with
    | none => .error (.unsupported "parallel invoke with a non-constant count" member)
    | some copies =>
      match call with
      | .call _ target args =>
        if args.any Expr.containsCall then
          .error (.unsupported "call inside a parallel invoke argument" member)
        else do
          let callee ← p.resolveCallee member target
          return [⟨id, callee, copies, true⟩]
      | _ => .error (.unsupported "parallel invoke of something other than a call" member)
  | s => do
    let sites ← (s.exprs.flatMap Expr.nodes).mapM (p.exprSite member parents s.id)
    return sites.flatten

def callSummary (parents : ParentIndex) (h : MemberHandle) : Synthesis CallSummary := do
  let member := p.tree.memberFullName h
  match (p.tree.method h).body with
  | none => .error (.unsupported "member without a body" member)
  | some body =>
    let sites := (← body.nodes.mapM (p.stmtSites member parents)).flatten
    let callees := p.tree.handles.filter fun c => sites.any fun s => s.callee = c
    return { callees := callees.map fun c => (c, largestGroup sites c)
             parallel := (sites.filter CallSite.isParallel).map CallSite.callee }

/-- Adds the summaries of a member and of all that it calls, directly or not, the later callees
first. The first argument bounds the members on a chain of calls. -/
def collectCalls (parents : ParentIndex) :
    Nat → List (MemberHandle × CallSummary) → MemberHandle →
      Synthesis (List (MemberHandle × CallSummary))
  | 0, found, _ => .ok found
  | depth + 1, found, h =>
    if (found.lookup h).isSome then .ok found
    else do
      let summary ← p.callSummary parents h
      summary.callees.reverse.foldlM (fun found c => collectCalls parents depth found c.1)
        ((h, summary) :: found)

end Program

/-- The members that can run, in the order of the tree, with the calls that they make. -/
structure CallGraph where
  summaries : List (MemberHandle × CallSummary)

namespace CallGraph

def ofEntryPoints (p : Program) (entries : List MemberHandle) : Synthesis CallGraph := do
  let parents := ParentIndex.ofTree p.tree
  let found ← entries.reverse.foldlM (p.collectCalls parents (p.tree.memberCount + 1)) []
  return ⟨p.tree.handles.filterMap fun h => (found.lookup h).map fun s => (h, s)⟩

def members (g : CallGraph) : List MemberHandle :=
  g.summaries.map Prod.fst

def summary? (g : CallGraph) (h : MemberHandle) : Option CallSummary :=
  g.summaries.lookup h

/-- The members that a member calls, in the order of the tree. -/
def callees (g : CallGraph) (h : MemberHandle) : List MemberHandle :=
  match g.summary? h with
  | some s => s.callees.map Prod.fst
  | none => []

def parallel (g : CallGraph) : List MemberHandle :=
  g.summaries.flatMap fun s => s.2.parallel

end CallGraph

end Fabric
