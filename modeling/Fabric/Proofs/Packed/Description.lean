import Fabric.Packed.Description
import Fabric.Proofs.Packed.Basic

namespace Fabric

open Packed

variable {bound : Nat}

theorem HwType.restores_unpack (t : HwType) {fuel : Nat} (hfuel : bound ≤ fuel) :
    Restores bound pack (HwType.unpack fuel) t := by
  -- The position costs a byte and a unit of fuel, so the bound holds for the parts as well.
  induction t generalizing bound fuel with
  | boolean =>
    refine restores_of_fuel hfuel fun fuel hfuel rest hbytes ↦ ?_
    exact bind_variant (by decide) hbytes fun _ ↦ rfl
  | signed width =>
    refine restores_of_fuel hfuel fun fuel hfuel rest hbytes ↦ ?_
    refine bind_variant (by decide) hbytes fun hbytes ↦ ?_
    exact (restores_uint16 width).bind hbytes fun _ ↦ rfl
  | unsigned width =>
    refine restores_of_fuel hfuel fun fuel hfuel rest hbytes ↦ ?_
    refine bind_variant (by decide) hbytes fun hbytes ↦ ?_
    exact (restores_uint16 width).bind hbytes fun _ ↦ rfl
  | array element length ih =>
    refine restores_of_fuel hfuel fun fuel hfuel rest hbytes ↦ ?_
    refine bind_variant (by decide) hbytes fun hbytes ↦ ?_
    rw [List.append_assoc] at hbytes ⊢
    refine (ih hfuel).bind hbytes fun hbytes ↦ ?_
    exact (restores_uint32 length).bind hbytes fun _ ↦ rfl

theorem restores_type (t : HwType) : Restores bound HwType.pack unpackType t :=
  restores_of_length fun _ _ hfuel ↦ t.restores_unpack hfuel

theorem restores_pinKind (p : PinKind) : Restores bound PinKind.pack PinKind.unpack p := by
  intro rest hbytes
  cases p with
  | started => exact bind_variant (by decide) hbytes fun _ ↦ rfl
  | finished => exact bind_variant (by decide) hbytes fun _ ↦ rfl
  | parameter name =>
    refine bind_variant (by decide) hbytes fun hbytes ↦ ?_
    exact (restores_text name).bind hbytes fun _ ↦ rfl
  | result => exact bind_variant (by decide) hbytes fun _ ↦ rfl

theorem restores_signalRef (r : SignalRef) : Restores bound SignalRef.pack SignalRef.unpack r := by
  intro rest hbytes
  cases r with
  | own pin =>
    refine bind_variant (by decide) hbytes fun hbytes ↦ ?_
    exact (restores_pinKind pin).bind hbytes fun _ ↦ rfl
  | invocation target slot pin =>
    refine bind_variant (by decide) hbytes fun hbytes ↦ ?_
    simp only [List.append_assoc] at hbytes ⊢
    refine (restores_text target).bind hbytes fun hbytes ↦ ?_
    refine (restores_uint32 slot).bind hbytes fun hbytes ↦ ?_
    exact (restores_pinKind pin).bind hbytes fun _ ↦ rfl

theorem restores_unaryOp (op : HwUnaryOp) :
    Restores bound (fun op ↦ packNat (HwUnaryOp.all.idxOf op)) (unpackChoice HwUnaryOp.all) op :=
  restores_choice (by cases op <;> decide) (by decide)

theorem restores_binaryOp (op : HwBinaryOp) :
    Restores bound (fun op ↦ packNat (HwBinaryOp.all.idxOf op)) (unpackChoice HwBinaryOp.all) op :=
  restores_choice (by cases op <;> decide) (by decide)

theorem HwExpr.restores_unpack (e : HwExpr) {fuel : Nat} (hfuel : bound ≤ fuel) :
    Restores bound pack (HwExpr.unpack fuel) e := by
  induction e generalizing bound fuel with
  | bool value =>
    refine restores_of_fuel hfuel fun fuel hfuel rest hbytes ↦ ?_
    refine bind_variant (by decide) hbytes fun hbytes ↦ ?_
    exact (restores_bool value).bind hbytes fun _ ↦ rfl
  | int value type =>
    refine restores_of_fuel hfuel fun fuel hfuel rest hbytes ↦ ?_
    refine bind_variant (by decide) hbytes fun hbytes ↦ ?_
    rw [List.append_assoc] at hbytes ⊢
    refine (restores_int64 value).bind hbytes fun hbytes ↦ ?_
    exact (restores_type type).bind hbytes fun _ ↦ rfl
  | «variable» name =>
    refine restores_of_fuel hfuel fun fuel hfuel rest hbytes ↦ ?_
    refine bind_variant (by decide) hbytes fun hbytes ↦ ?_
    exact (restores_text name).bind hbytes fun _ ↦ rfl
  | signal ref =>
    refine restores_of_fuel hfuel fun fuel hfuel rest hbytes ↦ ?_
    refine bind_variant (by decide) hbytes fun hbytes ↦ ?_
    exact (restores_signalRef ref).bind hbytes fun _ ↦ rfl
  | unary op operand ih =>
    refine restores_of_fuel hfuel fun fuel hfuel rest hbytes ↦ ?_
    refine bind_variant (by decide) hbytes fun hbytes ↦ ?_
    rw [List.append_assoc] at hbytes ⊢
    refine (restores_unaryOp op).bind hbytes fun hbytes ↦ ?_
    exact (ih hfuel).bind hbytes fun _ ↦ rfl
  | binary op lhs rhs type ihl ihr =>
    refine restores_of_fuel hfuel fun fuel hfuel rest hbytes ↦ ?_
    refine bind_variant (by decide) hbytes fun hbytes ↦ ?_
    simp only [List.append_assoc] at hbytes ⊢
    refine (restores_binaryOp op).bind hbytes fun hbytes ↦ ?_
    refine (ihl hfuel).bind hbytes fun hbytes ↦ ?_
    refine (ihr hfuel).bind hbytes fun hbytes ↦ ?_
    exact (restores_type type).bind hbytes fun _ ↦ rfl
  | index array position iha ihp =>
    refine restores_of_fuel hfuel fun fuel hfuel rest hbytes ↦ ?_
    refine bind_variant (by decide) hbytes fun hbytes ↦ ?_
    rw [List.append_assoc] at hbytes ⊢
    refine (iha hfuel).bind hbytes fun hbytes ↦ ?_
    exact (ihp hfuel).bind hbytes fun _ ↦ rfl
  | resize operand source target ih =>
    refine restores_of_fuel hfuel fun fuel hfuel rest hbytes ↦ ?_
    refine bind_variant (by decide) hbytes fun hbytes ↦ ?_
    simp only [List.append_assoc] at hbytes ⊢
    refine (ih hfuel).bind hbytes fun hbytes ↦ ?_
    refine (restores_type source).bind hbytes fun hbytes ↦ ?_
    exact (restores_type target).bind hbytes fun _ ↦ rfl

theorem restores_expr (e : HwExpr) : Restores bound HwExpr.pack unpackExpr e :=
  restores_of_length fun _ _ hfuel ↦ e.restores_unpack hfuel

theorem restores_target (t : HwTarget) : Restores bound HwTarget.pack HwTarget.unpack t := by
  intro rest hbytes
  cases t with
  | «variable» name =>
    refine bind_variant (by decide) hbytes fun hbytes ↦ ?_
    exact (restores_text name).bind hbytes fun _ ↦ rfl
  | element array index =>
    refine bind_variant (by decide) hbytes fun hbytes ↦ ?_
    rw [List.append_assoc] at hbytes ⊢
    refine (restores_text array).bind hbytes fun hbytes ↦ ?_
    exact (restores_expr index).bind hbytes fun _ ↦ rfl
  | signal ref =>
    refine bind_variant (by decide) hbytes fun hbytes ↦ ?_
    exact (restores_signalRef ref).bind hbytes fun _ ↦ rfl

theorem HwStmt.packAll_eq_flatMap (ss : List HwStmt) : packAll ss = ss.flatMap pack := by
  induction ss with
  | nil => rfl
  | cons s ss ih => rw [packAll, ih, List.flatMap_cons]

@[elab_as_elim]
theorem HwStmt.induction {motive : HwStmt → Prop}
    (assign : ∀ target value, motive (.assign target value))
    (branch : ∀ condition thenBody elseBody, (∀ s ∈ thenBody, motive s) →
      (∀ s ∈ elseBody, motive s) → motive (.branch condition thenBody elseBody))
    (comment : ∀ text, motive (.comment text)) (s : HwStmt) : motive s :=
  @HwStmt.rec motive (fun ss ↦ ∀ s ∈ ss, motive s) assign branch comment nofun
    (fun _ _ h hs ↦ List.forall_mem_cons.2 ⟨h, hs⟩) s

theorem HwStmt.restores_unpack (s : HwStmt) {fuel : Nat} (hfuel : bound ≤ fuel) :
    Restores bound pack (HwStmt.unpack fuel) s := by
  induction s using HwStmt.induction generalizing bound fuel with
  | assign target value =>
    refine restores_of_fuel hfuel fun fuel hfuel rest hbytes ↦ ?_
    rw [pack] at hbytes ⊢
    refine bind_variant (by decide) hbytes fun hbytes ↦ ?_
    rw [List.append_assoc] at hbytes ⊢
    refine (restores_target target).bind hbytes fun hbytes ↦ ?_
    exact (restores_expr value).bind hbytes fun _ ↦ rfl
  | branch condition thenBody elseBody hthen helse =>
    refine restores_of_fuel hfuel fun fuel hfuel rest hbytes ↦ ?_
    -- Either list is read with the fuel that is left, statement by statement.
    have hbody {body : List HwStmt} (h : ∀ s ∈ body, ∀ {bound fuel : Nat}, bound ≤ fuel →
        Restores bound pack (HwStmt.unpack fuel) s) :
        Restores (bound - 1) (packList pack) (unpackList fun bytes ↦ HwStmt.unpack fuel bytes)
          body :=
      restores_list (by cases fuel <;> rfl) fun s hs ↦ h s hs hfuel
    rw [pack] at hbytes ⊢
    refine bind_variant (by decide) hbytes fun hbytes ↦ ?_
    rw [packAll_eq_flatMap, packAll_eq_flatMap, List.append_assoc, List.append_assoc] at hbytes ⊢
    refine (restores_expr condition).bind hbytes fun hbytes ↦ ?_
    refine (hbody hthen).bind hbytes fun hbytes ↦ ?_
    exact (hbody helse).bind hbytes fun _ ↦ rfl
  | comment text =>
    refine restores_of_fuel hfuel fun fuel hfuel rest hbytes ↦ ?_
    rw [pack] at hbytes ⊢
    refine bind_variant (by decide) hbytes fun hbytes ↦ ?_
    exact (restores_text text).bind hbytes fun _ ↦ rfl

theorem restores_stmt (s : HwStmt) : Restores bound HwStmt.pack unpackStmt s :=
  restores_of_length fun _ _ hfuel ↦ s.restores_unpack hfuel

theorem restores_transition (t : Transition StateId) :
    Restores bound Transition.pack Transition.unpack t := by
  intro rest hbytes
  cases t with
  | goto next =>
    refine bind_variant (by decide) hbytes fun hbytes ↦ ?_
    exact (restores_uint32 next).bind hbytes fun _ ↦ rfl
  | branch condition ifTrue ifFalse =>
    refine bind_variant (by decide) hbytes fun hbytes ↦ ?_
    simp only [List.append_assoc] at hbytes ⊢
    refine (restores_expr condition).bind hbytes fun hbytes ↦ ?_
    refine (restores_uint32 ifTrue).bind hbytes fun hbytes ↦ ?_
    exact (restores_uint32 ifFalse).bind hbytes fun _ ↦ rfl
  | waitFor condition next =>
    refine bind_variant (by decide) hbytes fun hbytes ↦ ?_
    rw [List.append_assoc] at hbytes ⊢
    refine (restores_expr condition).bind hbytes fun hbytes ↦ ?_
    exact (restores_uint32 next).bind hbytes fun _ ↦ rfl

theorem restores_state (s : State StateId) : Restores bound State.pack State.unpack s := by
  intro rest hbytes
  simp only [State.pack, List.append_assoc] at hbytes ⊢
  refine (restores_uint32 s.id).bind hbytes fun hbytes ↦ ?_
  refine (restores_text s.label).bind hbytes fun hbytes ↦ ?_
  refine (restores_list rfl fun s _ ↦ restores_stmt s).bind hbytes fun hbytes ↦ ?_
  refine (restores_uint32 s.waitCycles).bind hbytes fun hbytes ↦ ?_
  exact (restores_transition s.transition).bind hbytes fun _ ↦ rfl

theorem restores_declaration (d : Declaration) :
    Restores bound Declaration.pack Declaration.unpack d := by
  intro rest hbytes
  simp only [Declaration.pack, List.append_assoc] at hbytes ⊢
  refine (restores_text d.name).bind hbytes fun hbytes ↦ ?_
  refine (restores_type d.type).bind hbytes fun hbytes ↦ ?_
  exact (restores_option fun s _ ↦ restores_text s).bind hbytes fun _ ↦ rfl

theorem restores_pin (p : ComponentPin) :
    Restores bound ComponentPin.pack ComponentPin.unpack p := by
  intro rest hbytes
  simp only [ComponentPin.pack, List.append_assoc] at hbytes ⊢
  refine (restores_text p.name).bind hbytes fun hbytes ↦ ?_
  exact (restores_type p.type).bind hbytes fun _ ↦ rfl

theorem restores_invocation (i : OutgoingInvocation) :
    Restores bound OutgoingInvocation.pack OutgoingInvocation.unpack i := by
  intro rest hbytes
  simp only [OutgoingInvocation.pack, List.append_assoc] at hbytes ⊢
  refine (restores_text i.target).bind hbytes fun hbytes ↦ ?_
  exact (restores_uint32 i.slots).bind hbytes fun _ ↦ rfl

theorem restores_component (c : Component) : Restores bound Component.pack Component.unpack c := by
  intro rest hbytes
  simp only [Component.pack, List.append_assoc] at hbytes ⊢
  refine (restores_text c.name).bind hbytes fun hbytes ↦ ?_
  refine (restores_list rfl fun p _ ↦ restores_pin p).bind hbytes fun hbytes ↦ ?_
  refine (restores_option fun t _ ↦ restores_type t).bind hbytes fun hbytes ↦ ?_
  refine (restores_list rfl fun d _ ↦ restores_declaration d).bind hbytes fun hbytes ↦ ?_
  refine (restores_list rfl fun s _ ↦ restores_state s).bind hbytes fun hbytes ↦ ?_
  refine (restores_list rfl fun i _ ↦ restores_invocation i).bind hbytes fun hbytes ↦ ?_
  refine (restores_uint32 c.instanceCount).bind hbytes fun hbytes ↦ ?_
  exact (restores_option fun n _ ↦ restores_uint64 n).bind hbytes fun _ ↦ rfl

theorem restores_slot (s : InvocationSlot) :
    Restores bound InvocationSlot.pack InvocationSlot.unpack s := by
  intro rest hbytes
  simp only [InvocationSlot.pack, List.append_assoc] at hbytes ⊢
  refine (restores_text s.caller).bind hbytes fun hbytes ↦ ?_
  refine (restores_uint32 s.callerInstance).bind hbytes fun hbytes ↦ ?_
  exact (restores_uint32 s.slot).bind hbytes fun _ ↦ rfl

theorem restores_proxyKind (k : ProxyKind) :
    Restores bound (fun k ↦ packNat (ProxyKind.all.idxOf k)) (unpackChoice ProxyKind.all) k :=
  restores_choice (by cases k <;> decide) (by decide)

theorem restores_proxy (p : Proxy) : Restores bound Proxy.pack Proxy.unpack p := by
  intro rest hbytes
  simp only [Proxy.pack, List.append_assoc] at hbytes ⊢
  refine (restores_text p.target).bind hbytes fun hbytes ↦ ?_
  refine (restores_proxyKind p.kind).bind hbytes fun hbytes ↦ ?_
  refine (restores_uint32 p.instanceCount).bind hbytes fun hbytes ↦ ?_
  refine (restores_list rfl fun s _ ↦ restores_slot s).bind hbytes fun hbytes ↦ ?_
  refine (restores_list rfl fun p _ ↦ restores_pin p).bind hbytes fun hbytes ↦ ?_
  exact (restores_option fun t _ ↦ restores_type t).bind hbytes fun _ ↦ rfl

theorem restores_memberId (e : MemberId) : Restores bound MemberId.pack MemberId.unpack e := by
  intro rest hbytes
  simp only [MemberId.pack, List.append_assoc] at hbytes ⊢
  refine (restores_uint32 e.id).bind hbytes fun hbytes ↦ ?_
  exact (restores_text e.fullName).bind hbytes fun _ ↦ rfl

theorem restores_parameterShape (p : ParameterShape) :
    Restores bound ParameterShape.pack ParameterShape.unpack p := by
  intro rest hbytes
  simp only [ParameterShape.pack, List.append_assoc] at hbytes ⊢
  refine (restores_text p.name).bind hbytes fun hbytes ↦ ?_
  exact (restores_text p.type).bind hbytes fun _ ↦ rfl

theorem restores_entryPointInfo (e : EntryPointInfo) :
    Restores bound EntryPointInfo.pack EntryPointInfo.unpack e := by
  intro rest hbytes
  simp only [EntryPointInfo.pack, List.append_assoc] at hbytes ⊢
  refine (restores_uint32 e.memberId).bind hbytes fun hbytes ↦ ?_
  refine (restores_text e.fullName).bind hbytes fun hbytes ↦ ?_
  refine (restores_list rfl fun p _ ↦ restores_parameterShape p).bind hbytes fun hbytes ↦ ?_
  refine (restores_text e.returnType).bind hbytes fun hbytes ↦ ?_
  refine (restores_bool e.isAsync).bind hbytes fun hbytes ↦ ?_
  exact (restores_bool e.isExplicitInterface).bind hbytes fun _ ↦ rfl

theorem restores_manifest (m : Manifest) : Restores bound Manifest.pack Manifest.unpack m := by
  intro rest hbytes
  simp only [Manifest.pack, List.append_assoc] at hbytes ⊢
  refine (restores_list rfl fun c _ ↦ restores_component c).bind hbytes fun hbytes ↦ ?_
  refine (restores_list rfl fun p _ ↦ restores_proxy p).bind hbytes fun hbytes ↦ ?_
  refine (restores_list rfl fun e _ ↦ restores_memberId e).bind hbytes fun hbytes ↦ ?_
  exact (restores_list rfl fun e _ ↦ restores_entryPointInfo e).bind hbytes fun _ ↦ rfl

theorem restores_device (d : Device) : Restores bound Device.pack Device.unpack d := by
  intro rest hbytes
  simp only [Device.pack, List.append_assoc] at hbytes ⊢
  refine (restores_text d.name).bind hbytes fun hbytes ↦ ?_
  refine (restores_binary64 d.clock.hz).bind hbytes fun hbytes ↦ ?_
  refine (restores_list rfl fun s _ ↦ restores_text s).bind hbytes fun hbytes ↦ ?_
  exact (restores_uint64 d.memoryBytes).bind hbytes fun _ ↦ rfl

theorem restores_description (d : Description) :
    Restores bound Description.pack Description.unpack d := by
  intro rest hbytes
  simp only [Description.pack, List.append_assoc] at hbytes ⊢
  refine (restores_text d.identity).bind hbytes fun hbytes ↦ ?_
  refine (restores_text d.source).bind hbytes fun hbytes ↦ ?_
  refine (restores_device d.device).bind hbytes fun hbytes ↦ ?_
  exact (restores_manifest d.manifest).bind hbytes fun _ ↦ rfl

end Fabric
