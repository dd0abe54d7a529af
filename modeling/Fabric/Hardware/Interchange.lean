import Fabric.Hardware.Manifest
import Fabric.Syntax.Interchange

/-!
The interchange form of manifests. Decoders take the number of arrays and objects that may still be
opened; a manifest is read without a bound, which means as many as the document has.
-/

namespace Fabric

open Json

def HwUnaryOp.names : List (String × HwUnaryOp) :=
  [("Neg", .neg), ("Not", .not)]

def HwUnaryOp.name : HwUnaryOp → String
  | .neg => "Neg"
  | .not => "Not"

def HwBinaryOp.names : List (String × HwBinaryOp) :=
  [("Add", .add), ("Sub", .sub), ("Mul", .mul), ("Div", .div), ("Rem", .rem), ("And", .and),
    ("Or", .or), ("Xor", .xor), ("Shl", .shl), ("Shr", .shr), ("Eq", .eq), ("Ne", .ne),
    ("Lt", .lt), ("Le", .le), ("Gt", .gt), ("Ge", .ge)]

def HwBinaryOp.name : HwBinaryOp → String
  | .add => "Add"
  | .sub => "Sub"
  | .mul => "Mul"
  | .div => "Div"
  | .rem => "Rem"
  | .and => "And"
  | .or => "Or"
  | .xor => "Xor"
  | .shl => "Shl"
  | .shr => "Shr"
  | .eq => "Eq"
  | .ne => "Ne"
  | .lt => "Lt"
  | .le => "Le"
  | .gt => "Gt"
  | .ge => "Ge"

def ProxyKind.names : List (String × ProxyKind) :=
  [("Direct", .direct), ("Dispatcher", .dispatcher)]

def ProxyKind.name : ProxyKind → String
  | .direct => "Direct"
  | .dispatcher => "Dispatcher"

def HwType.toJson : HwType → Json
  | .boolean => .str "Boolean"
  | .signed width => variant "Signed" (ofUInt16 width)
  | .unsigned width => variant "Unsigned" (ofUInt16 width)
  | .array element length =>
    variant "Array" (.obj [("element", element.toJson), ("length", ofUInt32 length)])

def PinKind.toJson : PinKind → Json
  | .started => .str "Started"
  | .finished => .str "Finished"
  | .parameter name => variant "Parameter" (.str name)
  | .result => .str "Return"

def SignalRef.toJson : SignalRef → Json
  | .own pin => variant "Own" pin.toJson
  | .invocation target slot pin =>
    variant "Invocation"
      (.obj [("target", .str target), ("slot", ofUInt32 slot), ("port", pin.toJson)])

def HwExpr.toJson : HwExpr → Json
  | .bool value => variant "Bool" (.bool value)
  | .int value type => variant "Int" (.obj [("value", ofInt64 value), ("ty", type.toJson)])
  | .variable name => variant "Variable" (.str name)
  | .signal ref => variant "Signal" ref.toJson
  | .unary op operand =>
    variant "Unary" (.obj [("op", .str op.name), ("operand", operand.toJson)])
  | .binary op lhs rhs type =>
    variant "Binary"
      (.obj [("op", .str op.name), ("lhs", lhs.toJson), ("rhs", rhs.toJson), ("ty", type.toJson)])
  | .index array position =>
    variant "Index" (.obj [("array", array.toJson), ("index", position.toJson)])
  | .resize operand source target =>
    variant "Resize"
      (.obj [("operand", operand.toJson), ("from", source.toJson), ("to", target.toJson)])

def HwTarget.toJson : HwTarget → Json
  | .variable name => variant "Variable" (.str name)
  | .element array index =>
    variant "Element" (.obj [("array", .str array), ("index", index.toJson)])
  | .signal ref => variant "Signal" ref.toJson

mutual

def HwStmt.toJson : HwStmt → Json
  | .assign target value =>
    variant "Assign" (.obj [("target", target.toJson), ("value", value.toJson)])
  | .branch condition thenBody elseBody =>
    variant "If"
      (.obj [("condition", condition.toJson), ("then_body", .arr (HwStmt.listToJson thenBody)),
        ("else_body", .arr (HwStmt.listToJson elseBody))])
  | .comment text => variant "Comment" (.str text)

def HwStmt.listToJson : List HwStmt → List Json
  | [] => []
  | s :: ss => s.toJson :: HwStmt.listToJson ss

end

def Transition.toJson : Transition StateId → Json
  | .goto next => variant "Goto" (ofUInt32 next)
  | .branch condition ifTrue ifFalse =>
    variant "Branch"
      (.obj [("condition", condition.toJson), ("if_true", ofUInt32 ifTrue),
        ("if_false", ofUInt32 ifFalse)])
  | .waitFor condition next =>
    variant "WaitFor" (.obj [("condition", condition.toJson), ("next", ofUInt32 next)])

def State.toJson (s : State StateId) : Json :=
  .obj [("id", ofUInt32 s.id), ("label", .str s.label), ("body", ofList HwStmt.toJson s.body),
    ("wait_cycles", ofUInt32 s.waitCycles), ("transition", s.transition.toJson)]

def Declaration.toJson (d : Declaration) : Json :=
  .obj [("name", .str d.name), ("ty", d.type.toJson), ("comment", ofOption .str d.comment)]

def ComponentPin.toJson (p : ComponentPin) : Json :=
  .obj [("name", .str p.name), ("ty", p.type.toJson)]

def OutgoingInvocation.toJson (i : OutgoingInvocation) : Json :=
  .obj [("target", .str i.target), ("slots", ofUInt32 i.slots)]

def Component.toJson (c : Component) : Json :=
  .obj [("name", .str c.name), ("parameters", ofList ComponentPin.toJson c.parameters),
    ("return_type", ofOption HwType.toJson c.returnType),
    ("declarations", ofList Declaration.toJson c.declarations),
    ("states", ofList State.toJson c.states),
    ("invocations", ofList OutgoingInvocation.toJson c.invocations),
    ("instance_count", ofUInt32 c.instanceCount),
    ("worst_case_cycles", ofOption ofUInt64 c.worstCaseCycles)]

def InvocationSlot.toJson (s : InvocationSlot) : Json :=
  .obj [("caller", .str s.caller), ("caller_instance", ofUInt32 s.callerInstance),
    ("slot", ofUInt32 s.slot)]

def Proxy.toJson (p : Proxy) : Json :=
  .obj [("target", .str p.target), ("kind", .str p.kind.name),
    ("instance_count", ofUInt32 p.instanceCount), ("slots", ofList InvocationSlot.toJson p.slots),
    ("parameters", ofList ComponentPin.toJson p.parameters),
    ("return_type", ofOption HwType.toJson p.returnType)]

def MemberId.toJson (e : MemberId) : Json :=
  .obj [("id", ofUInt32 e.id), ("full_name", .str e.fullName)]

def MemberIdTable.toJson (t : MemberIdTable) : Json :=
  .obj [("entries", ofList MemberId.toJson t.entries)]

def ParameterShape.toJson (p : ParameterShape) : Json :=
  .obj [("name", .str p.name), ("ty", .str p.type)]

def EntryPointInfo.toJson (e : EntryPointInfo) : Json :=
  .obj [("member_id", ofUInt32 e.memberId), ("full_name", .str e.fullName),
    ("parameters", ofList ParameterShape.toJson e.parameters), ("return_type", .str e.returnType),
    ("is_async", .bool e.isAsync), ("is_explicit_interface", .bool e.isExplicitInterface)]

def Manifest.toJson (m : Manifest) : Json :=
  .obj [("components", ofList Component.toJson m.components),
    ("proxies", ofList Proxy.toJson m.proxies), ("member_ids", m.memberIds.toJson),
    ("entry_points", ofList EntryPointInfo.toJson m.entryPoints)]

def HwType.decode : Nat → Json → Option HwType
  | _, .str tag => if tag = "Boolean" then some .boolean else none
  | depth + 1, .obj [(tag, payload)] =>
    match tag with
    | "Boolean" => if payload matches .null then some .boolean else none
    | "Signed" => (asUInt16 payload).map .signed
    | "Unsigned" => (asUInt16 payload).map .unsigned
    | "Array" =>
      match depth with
      | 0 => none
      | depth + 1 => do
        let r ← content .value ["element", "length"] payload
        return .array (← r.required "element" fun j => HwType.decode depth j)
          (← r.required "length" asUInt32)
    | _ => none
  | _, _ => none

def PinKind.decode (depth : Nat) (j : Json) : Option PinKind :=
  (decodeUnit [("Started", PinKind.started), ("Finished", PinKind.finished),
    ("Return", PinKind.result)] depth j).orElse fun _ =>
    match depth, j with
    | _ + 1, .obj [("Parameter", .str name)] => some (.parameter name)
    | _, _ => none

def SignalRef.decode : Nat → Json → Option SignalRef
  | 0, _ => none
  | depth + 1, j => do
    let (tag, payload) ← asVariant j
    match tag with
    | "Own" => return .own (← PinKind.decode depth payload)
    | "Invocation" =>
      match depth with
      | 0 => none
      | depth + 1 =>
        let r ← content .value ["target", "slot", "port"] payload
        return .invocation (← r.required "target" asText) (← r.required "slot" asUInt32)
          (← r.required "port" (PinKind.decode depth))
    | _ => none

def HwExpr.decode : Nat → Json → Option HwExpr
  | 0, _ => none
  | depth + 1, j => do
    let (tag, payload) ← asVariant j
    match tag with
    | "Bool" => return .bool (← asBool payload)
    | "Variable" => return .variable (← asText payload)
    | "Signal" => return .signal (← SignalRef.decode depth payload)
    | _ =>
      match depth with
      | 0 => none
      | depth + 1 =>
        match tag with
        | "Int" =>
          let r ← content .value ["value", "ty"] payload
          return .int (← r.required "value" asInt64) (← r.required "ty" (HwType.decode depth))
        | "Unary" =>
          let r ← content .value ["op", "operand"] payload
          return .unary (← r.required "op" (decodeUnit HwUnaryOp.names depth))
            (← r.required "operand" fun j => HwExpr.decode depth j)
        | "Binary" =>
          let r ← content .value ["op", "lhs", "rhs", "ty"] payload
          return .binary (← r.required "op" (decodeUnit HwBinaryOp.names depth))
            (← r.required "lhs" fun j => HwExpr.decode depth j)
            (← r.required "rhs" fun j => HwExpr.decode depth j)
            (← r.required "ty" (HwType.decode depth))
        | "Index" =>
          let r ← content .value ["array", "index"] payload
          return .index (← r.required "array" fun j => HwExpr.decode depth j)
            (← r.required "index" fun j => HwExpr.decode depth j)
        | "Resize" =>
          let r ← content .value ["operand", "from", "to"] payload
          return .resize (← r.required "operand" fun j => HwExpr.decode depth j)
            (← r.required "from" (HwType.decode depth)) (← r.required "to" (HwType.decode depth))
        | _ => none

def HwTarget.decode : Nat → Json → Option HwTarget
  | 0, _ => none
  | depth + 1, j => do
    let (tag, payload) ← asVariant j
    match tag with
    | "Variable" => return .variable (← asText payload)
    | "Signal" => return .signal (← SignalRef.decode depth payload)
    | "Element" =>
      match depth with
      | 0 => none
      | depth + 1 =>
        let r ← content .value ["array", "index"] payload
        return .element (← r.required "array" asText) (← r.required "index" (HwExpr.decode depth))
    | _ => none

mutual

def HwStmt.decode : Nat → Json → Option HwStmt
  | 0, _ => none
  | depth + 1, j => do
    let (tag, payload) ← asVariant j
    match tag with
    | "Comment" => return .comment (← asText payload)
    | _ =>
      match depth with
      | 0 => none
      | depth + 1 =>
        match tag with
        | "Assign" =>
          let r ← content .value ["target", "value"] payload
          return .assign (← r.required "target" (HwTarget.decode depth))
            (← r.required "value" (HwExpr.decode depth))
        | "If" =>
          let r ← content .value ["condition", "then_body", "else_body"] payload
          return .branch (← r.required "condition" (HwExpr.decode depth))
            (← r.required "then_body" fun j => HwStmt.decodeBody depth j)
            (← r.required "else_body" fun j => HwStmt.decodeBody depth j)
        | _ => none

def HwStmt.decodeBody : Nat → Json → Option (List HwStmt)
  | 0, _ => none
  | depth + 1, j => asList (fun j => HwStmt.decode depth j) j

end

def Transition.decode : Nat → Json → Option (Transition StateId)
  | 0, _ => none
  | depth + 1, j => do
    let (tag, payload) ← asVariant j
    match tag with
    | "Goto" => return .goto (← asUInt32 payload)
    | _ =>
      match depth with
      | 0 => none
      | depth + 1 =>
        match tag with
        | "Branch" =>
          let r ← content .value ["condition", "if_true", "if_false"] payload
          return .branch (← r.required "condition" (HwExpr.decode depth))
            (← r.required "if_true" asUInt32) (← r.required "if_false" asUInt32)
        | "WaitFor" =>
          let r ← content .value ["condition", "next"] payload
          return .waitFor (← r.required "condition" (HwExpr.decode depth))
            (← r.required "next" asUInt32)
        | _ => none

def State.decode : Nat → Json → Option (State StateId)
  | 0, _ => none
  | depth + 1, j => do
    let r ← record ["id", "label", "body", "wait_cycles", "transition"] j
    return {
      id := ← r.required "id" asUInt32
      label := ← r.required "label" asText
      body := ← r.required "body" (decodeList HwStmt.decode depth)
      waitCycles := ← r.required "wait_cycles" asUInt32
      transition := ← r.required "transition" (Transition.decode depth) }

def Declaration.decode : Nat → Json → Option Declaration
  | 0, _ => none
  | depth + 1, j => do
    let r ← record ["name", "ty", "comment"] j
    return {
      name := ← r.required "name" asText
      type := ← r.required "ty" (HwType.decode depth)
      comment := ← r.nullable "comment" asText }

def ComponentPin.decode : Nat → Json → Option ComponentPin
  | 0, _ => none
  | depth + 1, j => do
    let r ← record ["name", "ty"] j
    return { name := ← r.required "name" asText, type := ← r.required "ty" (HwType.decode depth) }

def OutgoingInvocation.decode : Nat → Json → Option OutgoingInvocation
  | 0, _ => none
  | _ + 1, j => do
    let r ← record ["target", "slots"] j
    return { target := ← r.required "target" asText, slots := ← r.required "slots" asUInt32 }

def Component.decode : Nat → Json → Option Component
  | 0, _ => none
  | depth + 1, j => do
    let r ← record
      ["name", "parameters", "return_type", "declarations", "states", "invocations",
        "instance_count", "worst_case_cycles"] j
    return {
      name := ← r.required "name" asText
      parameters := ← r.required "parameters" (decodeList ComponentPin.decode depth)
      returnType := ← r.nullable "return_type" (HwType.decode depth)
      declarations := ← r.required "declarations" (decodeList Declaration.decode depth)
      states := ← r.required "states" (decodeList State.decode depth)
      invocations := ← r.required "invocations" (decodeList OutgoingInvocation.decode depth)
      instanceCount := ← r.required "instance_count" asUInt32
      worstCaseCycles := ← r.nullable "worst_case_cycles" asUInt64 }

def InvocationSlot.decode : Nat → Json → Option InvocationSlot
  | 0, _ => none
  | _ + 1, j => do
    let r ← record ["caller", "caller_instance", "slot"] j
    return {
      caller := ← r.required "caller" asText
      callerInstance := ← r.required "caller_instance" asUInt32
      slot := ← r.required "slot" asUInt32 }

def Proxy.decode : Nat → Json → Option Proxy
  | 0, _ => none
  | depth + 1, j => do
    let r ← record ["target", "kind", "instance_count", "slots", "parameters", "return_type"] j
    return {
      target := ← r.required "target" asText
      kind := ← r.required "kind" (decodeUnit ProxyKind.names depth)
      instanceCount := ← r.required "instance_count" asUInt32
      slots := ← r.required "slots" (decodeList InvocationSlot.decode depth)
      parameters := ← r.required "parameters" (decodeList ComponentPin.decode depth)
      returnType := ← r.nullable "return_type" (HwType.decode depth) }

def MemberId.decode : Nat → Json → Option MemberId
  | 0, _ => none
  | _ + 1, j => do
    let r ← record ["id", "full_name"] j
    return { id := ← r.required "id" asUInt32, fullName := ← r.required "full_name" asText }

def MemberIdTable.decode : Nat → Json → Option MemberIdTable
  | 0, _ => none
  | depth + 1, j => do
    let r ← record ["entries"] j
    return ⟨← r.required "entries" (decodeList MemberId.decode depth)⟩

def ParameterShape.decode : Nat → Json → Option ParameterShape
  | 0, _ => none
  | _ + 1, j => do
    let r ← record ["name", "ty"] j
    return { name := ← r.required "name" asText, type := ← r.required "ty" asText }

def EntryPointInfo.decode : Nat → Json → Option EntryPointInfo
  | 0, _ => none
  | depth + 1, j => do
    let r ← record
      ["member_id", "full_name", "parameters", "return_type", "is_async",
        "is_explicit_interface"] j
    return {
      memberId := ← r.required "member_id" asUInt32
      fullName := ← r.required "full_name" asText
      parameters := ← r.required "parameters" (decodeList ParameterShape.decode depth)
      returnType := ← r.required "return_type" asText
      isAsync := ← r.required "is_async" asBool
      isExplicitInterface := ← r.required "is_explicit_interface" asBool }

namespace Manifest

def decode : Nat → Json → Option Manifest
  | 0, _ => none
  | depth + 1, j => do
    let r ← record ["components", "proxies", "member_ids", "entry_points"] j
    return {
      components := ← r.required "components" (decodeList Component.decode depth)
      proxies := ← r.required "proxies" (decodeList Proxy.decode depth)
      memberIds := ← r.required "member_ids" (MemberIdTable.decode depth)
      entryPoints := ← r.required "entry_points" (decodeList EntryPointInfo.decode depth) }

def ofJson? (j : Json) : Option Manifest :=
  decode j.depth j

def print (m : Manifest) : String :=
  m.toJson.pretty 0

end Manifest

end Fabric
