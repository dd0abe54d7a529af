import Fabric.Hardware.Component
import Fabric.Lowering.Operand
import Fabric.Synthesis.Program

namespace Fabric

namespace HwBinaryOp

def isShift : HwBinaryOp → Bool
  | .shl | .shr => true
  | _ => false

def isComparison : HwBinaryOp → Bool
  | .eq | .ne | .lt | .le | .gt | .ge => true
  | _ => false

def isBoolean : HwBinaryOp → Bool
  | .and | .or | .xor | .eq | .ne => true
  | _ => false

end HwBinaryOp

/-- What the statements of a component may refer to. -/
structure Interface where
  program : Program
  parameters : List ComponentPin
  returnType : Option HwType
  invocations : List OutgoingInvocation
  declarations : List Declaration

inductive Program.HasPin (p : Program) (target : String) : PinKind → HwType → Prop
  | started : HasPin p target .started .boolean
  | finished : HasPin p target .finished .boolean
  | parameter {h : MemberHandle} {q : Parameter} {type : HwType} :
      h ∈ p.tree.handles → p.tree.memberFullName h = target →
      q ∈ (p.tree.method h).parameters →
      q.type.hardware p.arrays (memberArrayKey target q.name) target = .ok type →
      HasPin p target (.parameter q.name) type
  | result {h : MemberHandle} {type : HwType} :
      h ∈ p.tree.handles → p.tree.memberFullName h = target →
      (p.tree.method h).returnType.resultHardware p.arrays (returnArrayKey target) target =
        .ok (some type) →
      HasPin p target .result type

variable (Γ : Interface)

/-- A slot of the component: its target is among the invocations, with more slots than its
number. -/
def Interface.HasSlot (target : String) (slot : UInt32) : Prop :=
  ∃ o ∈ Γ.invocations, o.target = target ∧ slot < o.slots

inductive SignalRef.HasType : SignalRef → HwType → Prop
  | started : HasType (.own .started) .boolean
  | finished : HasType (.own .finished) .boolean
  | parameter {name : String} {type : HwType} :
      ⟨name, type⟩ ∈ Γ.parameters → HasType (.own (.parameter name)) type
  | result {type : HwType} : Γ.returnType = some type → HasType (.own .result) type
  | invocation {target : String} {slot : UInt32} {pin : PinKind} {type : HwType} :
      Γ.HasSlot target slot → Γ.program.HasPin target pin type →
      HasType (.invocation target slot pin) type

def Interface.Declares (name : String) (type : HwType) : Prop :=
  ∃ e ∈ Γ.declarations, e.name = name ∧ e.type = type

namespace HwExpr

/-- The types of expressions. The operands of an operator other than a shift have one type, and
booleans are not computed with. -/
inductive HasType : HwExpr → HwType → Prop
  | bool (value : Bool) : HasType (.bool value) .boolean
  | int (value : Int64) (type : HwType) : HasType (.int value type) type
  | variable {name : String} {type : HwType} :
      Γ.Declares name type → HasType (.variable name) type
  | signal {s : SignalRef} {type : HwType} : s.HasType Γ type → HasType (.signal s) type
  | unary {op : HwUnaryOp} {e : HwExpr} {type : HwType} :
      (op = .neg → type ≠ .boolean) → HasType e type → HasType (.unary op e) type
  | shift {op : HwBinaryOp} {a b : HwExpr} {type amount : HwType} :
      op.isShift → HasType a type → HasType b amount → HasType (.binary op a b type) type
  | compare {op : HwBinaryOp} {a b : HwExpr} {type : HwType} :
      op.isComparison → (type = .boolean → op.isBoolean) → HasType a type → HasType b type →
      HasType (.binary op a b .boolean) .boolean
  | combine {op : HwBinaryOp} {a b : HwExpr} {type : HwType} :
      op.isShift = false → op.isComparison = false → (type = .boolean → op.isBoolean) →
      HasType a type → HasType b type → HasType (.binary op a b type) type
  | index {a i : HwExpr} {type place : HwType} {length : UInt32} :
      HasType a (.array type length) → HasType i place → place.element? = none →
      HasType (.index a i) type
  | resize {e : HwExpr} {source target : HwType} :
      HasType e source → HasType (.resize e source target) target

variable {Γ}

theorem HasType.coerce {e : HwExpr} {source : HwType} (h : e.HasType Γ source)
    (target : HwType) : (e.coerce source target).HasType Γ target := by
  unfold HwExpr.coerce
  split
  · rename_i heq
    exact heq ▸ h
  · split
    · split
      · exact .int _ _
      · exact .resize h
    · exact .resize h

end HwExpr

inductive HwTarget.HasType : HwTarget → HwType → Prop
  | variable {name : String} {type : HwType} :
      Γ.Declares name type → HasType (.variable name) type
  | element {array : String} {i : HwExpr} {type place : HwType} {length : UInt32} :
      Γ.Declares array (.array type length) → i.HasType Γ place → place.element? = none →
      HasType (.element array i) type
  | signal {s : SignalRef} {type : HwType} : s.HasType Γ type → HasType (.signal s) type

namespace HwStmt

mutual

/-- A value has the type of what it is assigned to, and conditions are booleans. -/
def Typed : HwStmt → Prop
  | .assign target value => ∃ type, target.HasType Γ type ∧ value.HasType Γ type
  | .branch condition thenBody elseBody =>
    condition.HasType Γ .boolean ∧ AllTyped thenBody ∧ AllTyped elseBody
  | .comment _ => True

def AllTyped : List HwStmt → Prop
  | [] => True
  | s :: ss => Typed s ∧ AllTyped ss

end

variable {Γ}

theorem allTyped_iff {ss : List HwStmt} : AllTyped Γ ss ↔ ∀ s ∈ ss, s.Typed Γ := by
  induction ss with
  | nil => simp [AllTyped]
  | cons s ss ih => simp [AllTyped, ih]

theorem typed_setVariable {name : String} {type : HwType} {value : HwExpr}
    (h : Γ.Declares name type) (hv : value.HasType Γ type) : (setVariable name value).Typed Γ := by
  unfold setVariable Typed
  exact ⟨type, .variable h, hv⟩

theorem typed_drive {s : SignalRef} {type : HwType} {value : HwExpr}
    (h : s.HasType Γ type) (hv : value.HasType Γ type) : (drive s value).Typed Γ := by
  unfold drive Typed
  exact ⟨type, .signal h, hv⟩

mutual

def drives : HwStmt → List (SignalRef × HwExpr)
  | .assign (.signal s) value => [(s, value)]
  | .assign _ _ => []
  | .branch _ thenBody elseBody => drivesAll thenBody ++ drivesAll elseBody
  | .comment _ => []

def drivesAll : List HwStmt → List (SignalRef × HwExpr)
  | [] => []
  | s :: ss => drives s ++ drivesAll ss

end

theorem drivesAll_eq (ss : List HwStmt) : drivesAll ss = ss.flatMap drives := by
  induction ss with
  | nil => rfl
  | cons s ss ih => simp [drivesAll, ih]

def starts (target : String) (slot : UInt32) (ss : List HwStmt) : List HwExpr :=
  (drivesAll ss).filterMap fun d ↦
    if d.1 = .invocation target slot .started then some d.2 else none

@[simp]
theorem starts_append (target : String) (slot : UInt32) (a b : List HwStmt) :
    starts target slot (a ++ b) = starts target slot a ++ starts target slot b := by
  simp [starts, drivesAll_eq]

def IsPlain (s : HwStmt) : Prop :=
  ∀ target slot, starts target slot [s] = []

theorem isPlain_setVariable (name : String) (value : HwExpr) :
    (setVariable name value).IsPlain := fun _ _ ↦ rfl

theorem isPlain_own (pin : PinKind) (value : HwExpr) : (drive (.own pin) value).IsPlain :=
  fun _ _ ↦ rfl

end HwStmt

/-- The condition of a transition is a boolean. -/
def Transition.Typed {ι : Type} : Transition ι → Prop
  | .goto _ => True
  | .branch condition _ _ => condition.HasType Γ .boolean
  | .waitFor condition _ => condition.HasType Γ .boolean

end Fabric
