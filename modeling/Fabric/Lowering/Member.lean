import Fabric.Lowering.Stmt

/-!
Members as components. The first state waits for the start signal, the second takes the parameters
over into variables, and the last one reports the end.
-/

namespace Fabric

namespace Draft

def begin (d : Draft) (parameters : List ComponentPin) : Draft :=
  let d := ((d.addState "idle").setTransition 0 (.waitFor (.signal (.own .started)) (.state 1)))
  let d := d.modifyState 0 fun s => { s with body := [.drive (.own .finished) (.bool false)] }
  let d := { d.addState "start" with current := 1 }
  parameters.foldl (fun d p =>
    let (name, d) := d.declare p.name p.type ("parameter " ++ p.name)
    (d.bind p.name (.variable name p.type)).push
      (.setVariable name (.signal (.own (.parameter p.name))))) d

end Draft

namespace Lowering

variable (l : Lowering)

def noExpansion : Expansion := fun _ _ _ =>
  .error (.inconsistent "call in an expanded member")

/-- Lowers the body of a member. Calls in it are expanded where the plan says so. -/
def body (s : Stmt) (d : Draft) : Synthesis Draft :=
  l.stmt (l.expand (l.stmt noExpansion)) s d

def pin (p : Parameter) : Synthesis ComponentPin := do
  return ⟨p.name, ← l.parameterType l.member.fullName p⟩

def component : Synthesis Component := do
  let m := l.program.tree.method l.member.handle
  let code ← l.require "member without a body" m.body
  let parameters ← m.parameters.mapM l.pin
  let returnType ← l.resultType l.member.handle
  let d ← l.body code ((Draft.empty l.member.fullName returnType).begin parameters)
  let c : Component :=
    { name := l.member.fullName
      parameters := parameters
      returnType := returnType
      declarations := d.declarations
      states := d.complete
      invocations := l.member.invocations.entries.map fun (target, slots) => ⟨target, slots⟩
      instanceCount := l.member.instances
      worstCaseCycles := none }
  return { c with worstCaseCycles := c.computeWorstCaseCycles.map UInt64.ofNat }

end Lowering

end Fabric
