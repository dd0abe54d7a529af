import Fabric.Calls.Search
import Fabric.Calls.Summary
import Fabric.Config.Instances

/-!
The plan of a program: which members become components, which are expanded where they are called,
and how many instances and invocation slots each component has. A component needs an instance for
every slot of every instance of its callers, and one more if it is an entry point. A member that
calls itself has as many as the configuration allows. Members that call each other in a circle are
refused.
-/

namespace Fabric

/-- What a component looks like from outside. -/
structure MemberPlan where
  handle : MemberHandle
  fullName : String
  instances : UInt32
  isEntry : Bool
  /-- The slots for every member that it invokes. -/
  invocations : Dictionary UInt32

structure CallPlan where
  members : Dictionary MemberPlan
  inlined : List MemberHandle
  entryPoints : List MemberHandle
  instances : InstanceTable

namespace CallGraph

variable (g : CallGraph) (p : Program)

def checkRecursion : Synthesis Unit :=
  match firstCycle (fun h => (g.callees h).reverse) g.members with
  | none => .ok ()
  | some members =>
    let names := (members.map p.tree.memberFullName).mergeSort fun a b => decide (a ≤ b)
    .error (.unsupported ("mutual recursion between " ++ ", ".intercalate names) (names.headD ""))

/-- A member is expanded where it is called if it is marked so, makes no calls, has no loop, is not
started in parallel and has no configured bound. -/
def isInlinable (bounds : InstanceTable) (h : MemberHandle) : Bool :=
  let m := p.tree.method h
  m.modifiers.inlineHint && (g.callees h).isEmpty && !g.parallel.contains h
    && (bounds.find? (p.tree.memberFullName h)).isNone
    && match m.body with
      | some body => !body.containsLoop
      | none => false

def inlined (bounds : InstanceTable) (entries : List MemberHandle) : List MemberHandle :=
  g.members.filter fun h => !entries.contains h && g.isInlinable p bounds h

def componentCallees (inlined : List MemberHandle) (h : MemberHandle) : List MemberHandle :=
  (g.callees h).filter fun c => c ≠ h && !inlined.contains c

def componentOrder (inlined : List MemberHandle) : Synthesis (List MemberHandle) :=
  match callersFirst (g.componentCallees inlined)
      (g.members.filter fun h => !inlined.contains h) with
  | some order => .ok order
  | none => .error (.inconsistent "call graph cycle survived the recursion check")

def saturate (n : Nat) : UInt32 :=
  UInt32.ofNat (min n 4294967295)

/-- The instances that others need: one for every slot of every instance of a caller, and one for
the outside. -/
def demand (entries : List MemberHandle) (planned : List (MemberHandle × UInt32))
    (h : MemberHandle) : UInt32 :=
  let calls := g.summaries.map fun (caller, summary) =>
    if caller = h then 0
    else
      match summary.slots? h, planned.lookup caller with
      | some slots, some count => slots.toNat * count.toNat
      | _, _ => 0
  saturate ((if entries.contains h then 1 else 0) + calls.foldl (· + ·) 0)

def selfCalls (h : MemberHandle) : UInt32 :=
  ((g.summary? h).bind fun s => s.slots? h).getD 0

/-- The instances of a member, given what others need and what the configuration allows. -/
def allocate (member : String) (demand selfCalls : UInt32) (bound : InstanceCount) :
    Synthesis UInt32 :=
  if 0 < selfCalls then
    if bound.isDefault then
      .error (.unsupported "recursive call without a configured instance count" member)
    else
      let required := saturate (demand.toNat + selfCalls.toNat)
      if bound.max < required then .error (.boundExceeded member bound.max required)
      else .ok bound.max
  else if !bound.isDefault && bound.max < demand then
    .error (.boundExceeded member bound.max demand)
  else .ok (max demand 1)

/-- The slots of a member for every component that it invokes. -/
def invocations (inlined : List MemberHandle) (h : MemberHandle) : Dictionary UInt32 :=
  match g.summary? h with
  | none => .empty
  | some s =>
    .ofList ((s.callees.filter fun c => !inlined.contains c.1).map fun c =>
      (p.tree.memberFullName c.1, c.2))

structure Planned where
  bounds : InstanceTable
  counts : List (MemberHandle × UInt32)
  members : Dictionary MemberPlan

def planMember (entries inlined : List MemberHandle) (done : Planned) (h : MemberHandle) :
    Synthesis Planned := do
  let name := p.tree.memberFullName h
  let (bound, bounds) := done.bounds.lookup name
  let count ← allocate name (g.demand entries done.counts h) (g.selfCalls h) bound.2
  let plan : MemberPlan :=
    { handle := h, fullName := name, instances := count, isEntry := entries.contains h
      invocations := g.invocations p inlined h }
  return ⟨bounds, (h, count) :: done.counts, done.members.insert name plan⟩

end CallGraph

namespace CallPlan

def ofProgram (p : Program) (entries : List MemberHandle) : Synthesis CallPlan := do
  let g ← CallGraph.ofEntryPoints p entries
  g.checkRecursion p
  let bounds := InstanceTable.ofConfig p.config
  let inlined := g.inlined p bounds entries
  let order ← g.componentOrder inlined
  let planned ← order.foldlM (g.planMember p entries inlined) ⟨bounds, [], .empty⟩
  return ⟨planned.members, inlined, entries, planned.bounds⟩

def components (plan : CallPlan) : List MemberPlan :=
  plan.members.entries.map Prod.snd

def member? (plan : CallPlan) (fullName : String) : Option MemberPlan :=
  plan.members.get? fullName

def isInlined (plan : CallPlan) (h : MemberHandle) : Bool :=
  plan.inlined.contains h

/-- The callers of a component with their slots for it, in the order of their names. -/
def callersOf (plan : CallPlan) (target : String) : List (MemberPlan × UInt32) :=
  plan.components.filterMap fun m => (m.invocations.get? target).map fun slots => (m, slots)

end CallPlan

end Fabric
