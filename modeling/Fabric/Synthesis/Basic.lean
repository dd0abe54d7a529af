import Fabric.Calls.Plan
import Fabric.Lowering.Member
import Fabric.Synthesis.Program
import Fabric.Vhdl.Writer

/-!
Synthesis: from a syntax tree and a configuration to a hardware description. The hardware of a program
is assembled from its components: one proxy for every component, the numbers of the entry points, and
the source text. The components are made by a pool of workers. A request that is cancelled stops after
the plan is made.
-/

namespace Fabric

namespace CallPlan

/-- The slots through which a component is invoked: those of every instance of its callers, and one
for the outside if it is an entry point. -/
def slotsOf (plan : CallPlan) (target : String) : List InvocationSlot :=
  let calls := (plan.callersOf target).flatMap fun (caller, count) =>
    (List.range caller.instances.toNat).flatMap fun i =>
      (List.range count.toNat).map fun slot =>
        ⟨caller.fullName, UInt32.ofNat i, UInt32.ofNat slot⟩
  let isEntry :=
    match plan.member? target with
    | some m => m.isEntry
    | none => false
  calls ++ if isEntry then [⟨externalCaller, 0, 0⟩] else []

def proxy (plan : CallPlan) (c : Component) : Proxy :=
  .make c.name c.instanceCount (plan.slotsOf c.name) c.parameters c.returnType

/-- One proxy for every component, in the order of the targets. -/
def proxies (plan : CallPlan) (components : List Component) : List Proxy :=
  (components.map plan.proxy).mergeSort fun a b => decide (a.target ≤ b.target)

end CallPlan

def firstRepetition : List String → Option String
  | a :: b :: rest => if a = b then some a else firstRepetition (b :: rest)
  | _ => none

namespace Program

variable (p : Program)

def entryPointInfo (plan : CallPlan) (e : MemberId) : Synthesis EntryPointInfo :=
  match plan.member? e.fullName with
  | none => .error (.inconsistent ("entry point " ++ e.fullName ++ " has no plan"))
  | some member =>
    let m := p.tree.method member.handle
    .ok { memberId := e.id
          fullName := e.fullName
          parameters := m.parameters.map fun q => ⟨q.name, q.type.display⟩
          returnType := m.returnType.display
          isAsync := m.modifiers.isAsync
          isExplicitInterface := m.explicitInterface.isSome }

/-- Puts components and proxies together and writes the source text. -/
def assemble (plan : CallPlan) (components : List Component) (proxies : List Proxy) :
    Synthesis Description := do
  let components := components.mergeSort fun a b => decide (a.name ≤ b.name)
  match firstRepetition (components.map Component.name) with
  | some name => .error (.inconsistent ("component " ++ name ++ " generated twice"))
  | none =>
    let memberIds := MemberIdTable.ofNames
      ((plan.components.filter MemberPlan.isEntry).map MemberPlan.fullName)
    let manifest : Manifest :=
      { components := components
        proxies := proxies.mergeSort fun a b => decide (a.target ≤ b.target)
        memberIds := memberIds
        entryPoints := ← memberIds.entries.mapM (p.entryPointInfo plan) }
    let device := p.timing.device
    return { identity := p.identity
             source := Vhdl.write manifest device p.identity p.config.generationMode
             device := device
             manifest := manifest }

end Program

def checkCancelled (cancelled : Bool) : Synthesis Unit :=
  if cancelled then .error .cancelled else .ok ()

/-- How workers share out the members of a plan: they do a job for every member and collect the
components. Which of several errors they give depends on the workers. -/
def Pool : Type :=
  (MemberPlan → Synthesis Component) → List MemberPlan → Synthesis (List Component)

/-- One worker, which stops at the first member that has no component. -/
def Pool.single : Pool := fun job members => members.mapM job

namespace SyntaxTree

/-- Makes hardware under the given identity. The configuration is taken as it is. -/
def run (t : SyntaxTree) (pool : Pool) (c : Config) (identity : String) (cancelled : Bool) :
    Synthesis Description := do
  let p ← Program.prepare t c identity
  if p.entryPoints.isEmpty then .error .noEntryPoints
  let plan ← CallPlan.ofProgram p p.entryPoints
  checkCancelled cancelled
  let components ← pool (fun m => (⟨p, plan, m⟩ : Lowering).component) plan.components
  p.assemble plan components (plan.proxies components)

def synthesize (t : SyntaxTree) (pool : Pool) (c : Config) (cancelled : Bool) :
    Synthesis Description := do
  c.validate.mapError SynthesisError.ofConfigError
  t.run pool c (t.identity c) cancelled

end SyntaxTree

end Fabric
