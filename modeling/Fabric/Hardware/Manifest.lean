import Fabric.Hardware.Component
import Fabric.Timing.Device

/-!
The manifest of generated hardware: its components, their proxies, and the entry points with the numbers
by which they are called from outside. A proxy connects the callers of a component with its instances:
every invocation slot of every instance of a caller is a slot of the proxy of the component that it
invokes.
-/

namespace Fabric

/-- The caller that stands for the outside of the hardware. -/
def externalCaller : String := "External"

inductive ProxyKind
  | direct
  | dispatcher
deriving DecidableEq, Repr, Inhabited

structure InvocationSlot where
  caller : String
  callerInstance : UInt32
  slot : UInt32
deriving DecidableEq, Repr, Inhabited

namespace InvocationSlot

def le (a b : InvocationSlot) : Bool :=
  if a.caller = b.caller then
    if a.callerInstance = b.callerInstance then a.slot.toNat ≤ b.slot.toNat
    else a.callerInstance.toNat < b.callerInstance.toNat
  else decide (a.caller < b.caller)

end InvocationSlot

def dedupSorted {α : Type} [DecidableEq α] : List α → List α
  | [] => []
  | [a] => [a]
  | a :: b :: rest => if a = b then dedupSorted (b :: rest) else a :: dedupSorted (b :: rest)

structure Proxy where
  target : String
  kind : ProxyKind
  instanceCount : UInt32
  slots : List InvocationSlot
  parameters : List ComponentPin
  returnType : Option HwType
deriving DecidableEq, Repr, Inhabited

namespace Proxy

/-- The proxy of a component with the given slots, in any order. A single slot is wired to a single
instance; otherwise a dispatcher assigns instances to slots. -/
def make (target : String) (instanceCount : UInt32) (slots : List InvocationSlot)
    (parameters : List ComponentPin) (returnType : Option HwType) : Proxy :=
  let slots := dedupSorted (slots.mergeSort InvocationSlot.le)
  { target := target
    kind := if slots.length = 1 ∧ instanceCount = 1 then .direct else .dispatcher
    instanceCount := instanceCount
    slots := slots
    parameters := parameters
    returnType := returnType }

def isExternallyInvoked (p : Proxy) : Bool :=
  p.slots.any fun s => s.caller = externalCaller

end Proxy

/-- Looks for the item with the given text among `size` items from `base` on, in a list that is
sorted by these texts. The half that can hold the item is kept until one item is left. -/
def searchSorted {α : Type} (text : α → String) (as : List α) (key : String) (base size : Nat) :
    Option α :=
  if 1 < size then
    match as[base + size / 2]? with
    | some a =>
      if key < text a then searchSorted text as key base (size - size / 2)
      else searchSorted text as key (base + size / 2) (size - size / 2)
    | none => none
  else as[base]?.filter fun a => text a = key
termination_by size

structure MemberId where
  id : UInt32
  fullName : String
deriving DecidableEq, Repr, Inhabited

/-- Entry points by number. The numbers follow the order of the names. -/
structure MemberIdTable where
  entries : List MemberId
deriving DecidableEq, Repr, Inhabited

namespace MemberIdTable

def ofNames (names : List String) : MemberIdTable :=
  let sorted := dedupSorted (names.mergeSort fun a b => decide (a ≤ b))
  ⟨sorted.zipIdx.map fun (name, i) => ⟨UInt32.ofNat i, name⟩⟩

def idOf (t : MemberIdTable) (fullName : String) : Option UInt32 :=
  (searchSorted MemberId.fullName t.entries fullName 0 t.entries.length).map MemberId.id

def nameOf (t : MemberIdTable) (id : UInt32) : Option String :=
  t.entries[id.toNat]?.map MemberId.fullName

end MemberIdTable

structure ParameterShape where
  name : String
  type : String
deriving DecidableEq, Repr, Inhabited

structure EntryPointInfo where
  memberId : UInt32
  fullName : String
  parameters : List ParameterShape
  returnType : String
  isAsync : Bool
  isExplicitInterface : Bool
deriving DecidableEq, Repr, Inhabited

structure Manifest where
  components : List Component
  proxies : List Proxy
  memberIds : MemberIdTable
  entryPoints : List EntryPointInfo
deriving BEq, Repr, Inhabited

namespace Manifest

def component? (m : Manifest) (name : String) : Option Component :=
  searchSorted Component.name m.components name 0 m.components.length

def proxy? (m : Manifest) (target : String) : Option Proxy :=
  searchSorted Proxy.target m.proxies target 0 m.proxies.length

def entryPoint? (m : Manifest) (fullName : String) : Option EntryPointInfo :=
  m.entryPoints.find? fun e => e.fullName = fullName

end Manifest

/-- Generated hardware: its source text, the device it is for, and its manifest. -/
structure Description where
  identity : String
  source : String
  device : Device
  manifest : Manifest
deriving BEq

end Fabric
