import Fabric.Hardware.Manifest
import Fabric.Packed.Basic

/-!
The packed form of generated hardware, as it is kept on disk. Recursive values are unpacked with
fuel: every nested value starts with a byte of its own, so the number of bytes is enough.
-/

namespace Fabric

open Packed

def HwType.pack : HwType → List UInt8
  | .boolean => packVariant 0 []
  | .signed width => packVariant 1 (packUInt16 width)
  | .unsigned width => packVariant 2 (packUInt16 width)
  | .array element length => packVariant 3 (element.pack ++ packUInt32 length)

def PinKind.pack : PinKind → List UInt8
  | .started => packVariant 0 []
  | .finished => packVariant 1 []
  | .parameter name => packVariant 2 (packText name)
  | .result => packVariant 3 []

def SignalRef.pack : SignalRef → List UInt8
  | .own pin => packVariant 0 pin.pack
  | .invocation target slot pin =>
    packVariant 1 (packText target ++ packUInt32 slot ++ pin.pack)

def HwUnaryOp.all : List HwUnaryOp := [.neg, .not]

def HwBinaryOp.all : List HwBinaryOp :=
  [.add, .sub, .mul, .div, .rem, .and, .or, .xor, .shl, .shr, .eq, .ne, .lt, .le, .gt, .ge]

def HwExpr.pack : HwExpr → List UInt8
  | .bool value => packVariant 0 (packBool value)
  | .int value type => packVariant 1 (packInt64 value ++ type.pack)
  | .variable name => packVariant 2 (packText name)
  | .signal ref => packVariant 3 ref.pack
  | .unary op operand => packVariant 4 (packNat (HwUnaryOp.all.idxOf op) ++ operand.pack)
  | .binary op lhs rhs type =>
    packVariant 5 (packNat (HwBinaryOp.all.idxOf op) ++ lhs.pack ++ rhs.pack ++ type.pack)
  | .index array position => packVariant 6 (array.pack ++ position.pack)
  | .resize operand source target => packVariant 7 (operand.pack ++ source.pack ++ target.pack)

def HwTarget.pack : HwTarget → List UInt8
  | .variable name => packVariant 0 (packText name)
  | .element array index => packVariant 1 (packText array ++ index.pack)
  | .signal ref => packVariant 2 ref.pack

mutual

def HwStmt.pack : HwStmt → List UInt8
  | .assign target value => packVariant 0 (target.pack ++ value.pack)
  | .branch condition thenBody elseBody =>
    packVariant 1
      (condition.pack ++ (packNat thenBody.length ++ HwStmt.packAll thenBody)
        ++ (packNat elseBody.length ++ HwStmt.packAll elseBody))
  | .comment text => packVariant 2 (packText text)

def HwStmt.packAll : List HwStmt → List UInt8
  | [] => []
  | s :: ss => s.pack ++ HwStmt.packAll ss

end

def Transition.pack : Transition StateId → List UInt8
  | .goto next => packVariant 0 (packUInt32 next)
  | .branch condition ifTrue ifFalse =>
    packVariant 1 (condition.pack ++ packUInt32 ifTrue ++ packUInt32 ifFalse)
  | .waitFor condition next => packVariant 2 (condition.pack ++ packUInt32 next)

def State.pack (s : State StateId) : List UInt8 :=
  packUInt32 s.id ++ packText s.label ++ packList HwStmt.pack s.body ++ packUInt32 s.waitCycles
    ++ s.transition.pack

def Declaration.pack (d : Declaration) : List UInt8 :=
  packText d.name ++ d.type.pack ++ packOption packText d.comment

def ComponentPin.pack (p : ComponentPin) : List UInt8 :=
  packText p.name ++ p.type.pack

def OutgoingInvocation.pack (i : OutgoingInvocation) : List UInt8 :=
  packText i.target ++ packUInt32 i.slots

def Component.pack (c : Component) : List UInt8 :=
  packText c.name ++ packList ComponentPin.pack c.parameters
    ++ packOption HwType.pack c.returnType ++ packList Declaration.pack c.declarations
    ++ packList State.pack c.states ++ packList OutgoingInvocation.pack c.invocations
    ++ packUInt32 c.instanceCount ++ packOption packUInt64 c.worstCaseCycles

def ProxyKind.all : List ProxyKind := [.direct, .dispatcher]

def InvocationSlot.pack (s : InvocationSlot) : List UInt8 :=
  packText s.caller ++ packUInt32 s.callerInstance ++ packUInt32 s.slot

def Proxy.pack (p : Proxy) : List UInt8 :=
  packText p.target ++ packNat (ProxyKind.all.idxOf p.kind) ++ packUInt32 p.instanceCount
    ++ packList InvocationSlot.pack p.slots ++ packList ComponentPin.pack p.parameters
    ++ packOption HwType.pack p.returnType

def MemberId.pack (e : MemberId) : List UInt8 :=
  packUInt32 e.id ++ packText e.fullName

def ParameterShape.pack (p : ParameterShape) : List UInt8 :=
  packText p.name ++ packText p.type

def EntryPointInfo.pack (e : EntryPointInfo) : List UInt8 :=
  packUInt32 e.memberId ++ packText e.fullName ++ packList ParameterShape.pack e.parameters
    ++ packText e.returnType ++ packBool e.isAsync ++ packBool e.isExplicitInterface

def Manifest.pack (m : Manifest) : List UInt8 :=
  packList Component.pack m.components ++ packList Proxy.pack m.proxies
    ++ packList MemberId.pack m.memberIds.entries ++ packList EntryPointInfo.pack m.entryPoints

def Device.pack (d : Device) : List UInt8 :=
  packText d.name ++ packBinary64 d.clock.hz ++ packList packText d.channels
    ++ packUInt64 d.memoryBytes

def Description.pack (d : Description) : List UInt8 :=
  packText d.identity ++ packText d.source ++ d.device.pack ++ d.manifest.pack

def HwType.unpack : Nat → Unpack HwType
  | 0, _ => none
  | fuel + 1, bytes => do
    let (position, rest) ← unpackNat 4 bytes
    match position with
    | 0 => return (.boolean, rest)
    | 1 =>
      let (width, rest) ← unpackUInt16 rest
      return (.signed width, rest)
    | 2 =>
      let (width, rest) ← unpackUInt16 rest
      return (.unsigned width, rest)
    | 3 =>
      let (element, rest) ← HwType.unpack fuel rest
      let (length, rest) ← unpackUInt32 rest
      return (.array element length, rest)
    | _ => none

def PinKind.unpack : Unpack PinKind := fun bytes => do
  let (position, rest) ← unpackNat 4 bytes
  match position with
  | 0 => return (.started, rest)
  | 1 => return (.finished, rest)
  | 2 =>
    let (name, rest) ← unpackText rest
    return (.parameter name, rest)
  | 3 => return (.result, rest)
  | _ => none

def SignalRef.unpack : Unpack SignalRef := fun bytes => do
  let (position, rest) ← unpackNat 4 bytes
  match position with
  | 0 =>
    let (pin, rest) ← PinKind.unpack rest
    return (.own pin, rest)
  | 1 =>
    let (target, rest) ← unpackText rest
    let (slot, rest) ← unpackUInt32 rest
    let (pin, rest) ← PinKind.unpack rest
    return (.invocation target slot pin, rest)
  | _ => none

def unpackType : Unpack HwType := fun bytes =>
  HwType.unpack (bytes.length + 1) bytes

def HwExpr.unpack : Nat → Unpack HwExpr
  | 0, _ => none
  | fuel + 1, bytes => do
    let (position, rest) ← unpackNat 4 bytes
    match position with
    | 0 =>
      let (value, rest) ← unpackBool rest
      return (.bool value, rest)
    | 1 =>
      let (value, rest) ← unpackInt64 rest
      let (type, rest) ← unpackType rest
      return (.int value type, rest)
    | 2 =>
      let (name, rest) ← unpackText rest
      return (.variable name, rest)
    | 3 =>
      let (ref, rest) ← SignalRef.unpack rest
      return (.signal ref, rest)
    | 4 =>
      let (op, rest) ← unpackChoice HwUnaryOp.all rest
      let (operand, rest) ← HwExpr.unpack fuel rest
      return (.unary op operand, rest)
    | 5 =>
      let (op, rest) ← unpackChoice HwBinaryOp.all rest
      let (lhs, rest) ← HwExpr.unpack fuel rest
      let (rhs, rest) ← HwExpr.unpack fuel rest
      let (type, rest) ← unpackType rest
      return (.binary op lhs rhs type, rest)
    | 6 =>
      let (array, rest) ← HwExpr.unpack fuel rest
      let (position, rest) ← HwExpr.unpack fuel rest
      return (.index array position, rest)
    | 7 =>
      let (operand, rest) ← HwExpr.unpack fuel rest
      let (source, rest) ← unpackType rest
      let (target, rest) ← unpackType rest
      return (.resize operand source target, rest)
    | _ => none

def unpackExpr : Unpack HwExpr := fun bytes =>
  HwExpr.unpack (bytes.length + 1) bytes

def HwTarget.unpack : Unpack HwTarget := fun bytes => do
  let (position, rest) ← unpackNat 4 bytes
  match position with
  | 0 =>
    let (name, rest) ← unpackText rest
    return (.variable name, rest)
  | 1 =>
    let (array, rest) ← unpackText rest
    let (index, rest) ← unpackExpr rest
    return (.element array index, rest)
  | 2 =>
    let (ref, rest) ← SignalRef.unpack rest
    return (.signal ref, rest)
  | _ => none

def HwStmt.unpack : Nat → Unpack HwStmt
  | 0, _ => none
  | fuel + 1, bytes => do
    let (position, rest) ← unpackNat 4 bytes
    match position with
    | 0 =>
      let (target, rest) ← HwTarget.unpack rest
      let (value, rest) ← unpackExpr rest
      return (.assign target value, rest)
    | 1 =>
      let (condition, rest) ← unpackExpr rest
      let (thenBody, rest) ← unpackList (fun bytes => HwStmt.unpack fuel bytes) rest
      let (elseBody, rest) ← unpackList (fun bytes => HwStmt.unpack fuel bytes) rest
      return (.branch condition thenBody elseBody, rest)
    | 2 =>
      let (text, rest) ← unpackText rest
      return (.comment text, rest)
    | _ => none

def unpackStmt : Unpack HwStmt := fun bytes =>
  HwStmt.unpack (bytes.length + 1) bytes

def Transition.unpack : Unpack (Transition StateId) := fun bytes => do
  let (position, rest) ← unpackNat 4 bytes
  match position with
  | 0 =>
    let (next, rest) ← unpackUInt32 rest
    return (.goto next, rest)
  | 1 =>
    let (condition, rest) ← unpackExpr rest
    let (ifTrue, rest) ← unpackUInt32 rest
    let (ifFalse, rest) ← unpackUInt32 rest
    return (.branch condition ifTrue ifFalse, rest)
  | 2 =>
    let (condition, rest) ← unpackExpr rest
    let (next, rest) ← unpackUInt32 rest
    return (.waitFor condition next, rest)
  | _ => none

def State.unpack : Unpack (State StateId) := fun bytes => do
  let (id, rest) ← unpackUInt32 bytes
  let (label, rest) ← unpackText rest
  let (body, rest) ← unpackList unpackStmt rest
  let (waitCycles, rest) ← unpackUInt32 rest
  let (transition, rest) ← Transition.unpack rest
  return (⟨id, label, body, waitCycles, transition⟩, rest)

def Declaration.unpack : Unpack Declaration := fun bytes => do
  let (name, rest) ← unpackText bytes
  let (type, rest) ← unpackType rest
  let (comment, rest) ← unpackOption unpackText rest
  return (⟨name, type, comment⟩, rest)

def ComponentPin.unpack : Unpack ComponentPin := fun bytes => do
  let (name, rest) ← unpackText bytes
  let (type, rest) ← unpackType rest
  return (⟨name, type⟩, rest)

def OutgoingInvocation.unpack : Unpack OutgoingInvocation := fun bytes => do
  let (target, rest) ← unpackText bytes
  let (slots, rest) ← unpackUInt32 rest
  return (⟨target, slots⟩, rest)

def Component.unpack : Unpack Component := fun bytes => do
  let (name, rest) ← unpackText bytes
  let (parameters, rest) ← unpackList ComponentPin.unpack rest
  let (returnType, rest) ← unpackOption unpackType rest
  let (declarations, rest) ← unpackList Declaration.unpack rest
  let (states, rest) ← unpackList State.unpack rest
  let (invocations, rest) ← unpackList OutgoingInvocation.unpack rest
  let (instanceCount, rest) ← unpackUInt32 rest
  let (worstCaseCycles, rest) ← unpackOption unpackUInt64 rest
  return (⟨name, parameters, returnType, declarations, states, invocations, instanceCount,
    worstCaseCycles⟩, rest)

def InvocationSlot.unpack : Unpack InvocationSlot := fun bytes => do
  let (caller, rest) ← unpackText bytes
  let (callerInstance, rest) ← unpackUInt32 rest
  let (slot, rest) ← unpackUInt32 rest
  return (⟨caller, callerInstance, slot⟩, rest)

def Proxy.unpack : Unpack Proxy := fun bytes => do
  let (target, rest) ← unpackText bytes
  let (kind, rest) ← unpackChoice ProxyKind.all rest
  let (instanceCount, rest) ← unpackUInt32 rest
  let (slots, rest) ← unpackList InvocationSlot.unpack rest
  let (parameters, rest) ← unpackList ComponentPin.unpack rest
  let (returnType, rest) ← unpackOption unpackType rest
  return (⟨target, kind, instanceCount, slots, parameters, returnType⟩, rest)

def MemberId.unpack : Unpack MemberId := fun bytes => do
  let (id, rest) ← unpackUInt32 bytes
  let (fullName, rest) ← unpackText rest
  return (⟨id, fullName⟩, rest)

def ParameterShape.unpack : Unpack ParameterShape := fun bytes => do
  let (name, rest) ← unpackText bytes
  let (type, rest) ← unpackText rest
  return (⟨name, type⟩, rest)

def EntryPointInfo.unpack : Unpack EntryPointInfo := fun bytes => do
  let (memberId, rest) ← unpackUInt32 bytes
  let (fullName, rest) ← unpackText rest
  let (parameters, rest) ← unpackList ParameterShape.unpack rest
  let (returnType, rest) ← unpackText rest
  let (isAsync, rest) ← unpackBool rest
  let (isExplicitInterface, rest) ← unpackBool rest
  return (⟨memberId, fullName, parameters, returnType, isAsync, isExplicitInterface⟩, rest)

def Manifest.unpack : Unpack Manifest := fun bytes => do
  let (components, rest) ← unpackList Component.unpack bytes
  let (proxies, rest) ← unpackList Proxy.unpack rest
  let (entries, rest) ← unpackList MemberId.unpack rest
  let (entryPoints, rest) ← unpackList EntryPointInfo.unpack rest
  return (⟨components, proxies, ⟨entries⟩, entryPoints⟩, rest)

def Device.unpack : Unpack Device := fun bytes => do
  let (name, rest) ← unpackText bytes
  let (hz, rest) ← unpackBinary64 rest
  let (channels, rest) ← unpackList unpackText rest
  let (memoryBytes, rest) ← unpackUInt64 rest
  return (⟨name, ⟨hz⟩, channels, memoryBytes⟩, rest)

def Description.unpack : Unpack Description := fun bytes => do
  let (identity, rest) ← unpackText bytes
  let (source, rest) ← unpackText rest
  let (device, rest) ← Device.unpack rest
  let (manifest, rest) ← Manifest.unpack rest
  return (⟨identity, source, device, manifest⟩, rest)

end Fabric
