import Fabric.Vhdl.Expr
import Fabric.Vhdl.Layout

/-!
The process of an instance of a component: one case for each state of its machine.
-/

namespace Fabric.Vhdl

namespace Scope

def target (s : Scope) : HwTarget → String × String
  | .variable name => (s.variableName name, ":=")
  | .element array index =>
    ((Code.select (.name (s.variableName array)) (s.code index)).print, ":=")
  | .signal signal => (s.signal signal, "<=")

mutual

def stmt (s : Scope) : HwStmt → List Step
  | .assign target value =>
    let (left, sign) := s.target target
    [Step.line (left ++ " " ++ sign ++ " " ++ s.expr value ++ ";")]
  | .branch condition thenBody elseBody =>
    [Step.line ("if " ++ s.expr condition ++ " then")]
      ++ indented ((if thenBody.isEmpty then [Step.line "null;"] else []) ++ s.stmts thenBody)
      ++ (if elseBody.isEmpty then [] else Step.line "else" :: indented (s.stmts elseBody))
      ++ [Step.line "end if;"]
  | .comment text => if s.names.isVerbose then [Step.comment text] else []

def stmts (s : Scope) : List HwStmt → List Step
  | [] => []
  | t :: ts => s.stmt t ++ s.stmts ts

end

def goTo (s : Scope) (id : StateId) : Step :=
  Step.line ("state := " ++ s.names.state id ++ ";")

def transition (s : Scope) : Transition StateId → List Step
  | .goto next => [s.goTo next]
  | .branch condition ifTrue ifFalse =>
    [Step.line ("if " ++ s.expr condition ++ " then")] ++ indented [s.goTo ifTrue]
      ++ [Step.line "else"] ++ indented [s.goTo ifFalse] ++ [Step.line "end if;"]
  | .waitFor condition next =>
    [Step.line ("if " ++ s.expr condition ++ " then")] ++ indented [s.goTo next]
      ++ [Step.line "end if;"]

/-- A state: its body runs in the first of its cycles, its transition in the last. -/
def state (s : Scope) (st : State StateId) : List Step :=
  let label := if s.names.isVerbose && !st.label.isEmpty then [Step.comment st.label] else []
  let content :=
    if st.waitCycles = 0 then s.stmts st.body ++ s.transition st.transition
    else
      [Step.line "if wait_count = 0 then"]
        ++ indented (s.stmts st.body ++ if st.body.isEmpty then [Step.line "null;"] else [])
        ++ [Step.line "end if;",
          Step.line ("if wait_count < " ++ toString st.waitCycles.toNat ++ " then")]
        ++ indented [Step.line "wait_count := wait_count + 1;"]
        ++ [Step.line "else"]
        ++ indented (Step.line "wait_count := 0;" :: s.transition st.transition)
        ++ [Step.line "end if;"]
  Step.line ("when " ++ s.names.state st.id ++ " =>") :: indented (label ++ content)

def maxWait (s : Scope) : Nat :=
  (s.component.states.map fun st => st.waitCycles.toNat).foldl max 0

def declaration (s : Scope) (d : Declaration) : List Step :=
  let comment :=
    match d.comment with
    | some text => if s.names.isVerbose then [Step.comment text] else []
    | none => []
  comment ++ [Step.line ("variable " ++ s.variableName d.name ++ " : " ++ typeText d.type ++ " := "
    ++ (defaultCode d.type).print ++ ";")]

def resetSignals (s : Scope) : List Step :=
  let clear (signal : SignalRef) : Step := Step.line (s.signal signal ++ " <= false;")
  clear (.own .finished) :: s.component.invocations.flatMap fun i =>
    (List.range i.slots.toNat).map fun slot =>
      clear (.invocation i.target (UInt32.ofNat slot) .started)

def process (s : Scope) : List Step :=
  let c := s.component
  let wait := s.maxWait
  let heading :=
    if s.names.isVerbose then
      Step.comment (c.name ++ " instance " ++ toString s.number)
        :: c.worstCaseCycles.toList.map fun cycles =>
          Step.comment ("worst case " ++ toString cycles.toNat ++ " clock cycles")
    else []
  let idle := s.names.state Component.idleState
  let states := Text.joinWith ", " (c.states.map fun st => s.names.state st.id)
  let declarations :=
    [Step.line ("type state_t is (" ++ states ++ ");"),
      Step.line ("variable state : state_t := " ++ idle ++ ";")]
      ++ (if 0 < wait then
          [Step.line ("variable wait_count : natural range 0 to " ++ toString wait ++ " := 0;")]
        else [])
      ++ c.declarations.flatMap s.declaration
  let reset :=
    [Step.line ("state := " ++ idle ++ ";")]
      ++ (if 0 < wait then [Step.line "wait_count := 0;"] else []) ++ s.resetSignals
  let cases :=
    [Step.line "case state is"] ++ indented (c.states.flatMap s.state) ++ [Step.line "end case;"]
  heading ++ [Step.line (s.names.processLabel c.name s.number ++ ": process (Clock)")]
    ++ indented declarations
    ++ [Step.line "begin"]
    ++ indented
      ([Step.line "if rising_edge(Clock) then"]
        ++ indented
          ([Step.line "if Reset = '1' then"] ++ indented reset
            ++ [Step.line "else"] ++ indented cases ++ [Step.line "end if;"])
        ++ [Step.line "end if;"])
    ++ [Step.line "end process;"]

end Scope

end Fabric.Vhdl
