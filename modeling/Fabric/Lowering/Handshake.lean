import Fabric.Lowering.Draft

/-!
The handshake of a batch of calls that run at the same time. It takes four states: wait until every
slot has dropped its end signal from its last use, start all slots with their arguments, wait for
all end signals, and read the results while the start signals are dropped.
-/

namespace Fabric

/-- A call through a slot, with the values of its arguments. -/
structure Invocation where
  target : String
  slot : UInt32
  arguments : List (String × HwExpr)
  returnType : Option HwType

namespace Invocation

def pin (i : Invocation) (kind : PinKind) : SignalRef :=
  .invocation i.target i.slot kind

def finished (i : Invocation) : HwExpr :=
  .signal (i.pin .finished)

def startBody (i : Invocation) : List HwStmt :=
  i.arguments.map (fun (name, value) => .drive (i.pin (.parameter name)) value)
    ++ [.drive (i.pin .started) (.bool true)]

end Invocation

def HwExpr.all : List HwExpr → HwExpr
  | [] => .bool true
  | c :: rest => rest.foldl (fun acc next => .binary .and acc next .boolean) c

namespace Draft

/-- Reads the results of finished calls into temporaries and drops the start signals. -/
def collect : List Invocation → Draft → List (Option Lowered) × Draft
  | [], d => ([], d)
  | i :: rest, d =>
    let (value, d) :=
      match i.returnType with
      | some type =>
        let (name, d) := d.temporary type ("result of " ++ i.target)
        (some (Lowered.ofVariable name type),
          d.push (.setVariable name (.signal (i.pin .result))))
      | none => (none, d)
    let (values, d) := collect rest (d.push (.drive (i.pin .started) (.bool false)))
    (value :: values, d)

def handshake (d : Draft) (calls : List Invocation) : List (Option Lowered) × Draft :=
  let label (what : String) := what ++ " " ++ ", ".intercalate (calls.map Invocation.target)
  let d := d.openState (label "await idle")
  let ready := d.current
  let start := d.nextState
  let d := (d.addState (label "start")).setTransition ready
    (.waitFor (.all (calls.map fun i => .unary .not i.finished)) (.state start))
  let d := d.modifyState start fun s => { s with body := calls.flatMap Invocation.startBody }
  let wait := d.nextState
  let d := (d.addState (label "await")).link start wait
  let done := d.nextState
  let d := (d.addState (label "collect")).setTransition wait
    (.waitFor (.all (calls.map Invocation.finished)) (.state done))
  collect calls (d.enter done)

end Draft

end Fabric
