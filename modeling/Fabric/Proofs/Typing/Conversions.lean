import Fabric.Proofs.Component.WellFormed
import Fabric.Proofs.Construction.Inference
import Fabric.Proofs.Construction.Steps

namespace Fabric

namespace HwType

instance : DecidablePred IsInteger
  | signed width => isTrue (.inl ⟨width, rfl⟩)
  | unsigned width => isTrue (.inr ⟨width, rfl⟩)
  | boolean => isFalse (by rintro (⟨_, h⟩ | ⟨_, h⟩) <;> cases h)
  | array _ _ => isFalse (by rintro (⟨_, h⟩ | ⟨_, h⟩) <;> cases h)

instance (a b : HwType) : Decidable (a.Near b) := inferInstanceAs (Decidable (_ ∨ _))

def Converts (a b : HwType) : Prop :=
  a = b ∨ a.IsInteger ∧ (b.IsInteger ∨ b = boolean)

instance (a b : HwType) : Decidable (a.Converts b) := inferInstanceAs (Decidable (_ ∨ _))

variable {a b c : HwType}

theorem not_isInteger_boolean : ¬boolean.IsInteger := by decide

theorem not_isInteger_array {element : HwType} {length : UInt32} :
    ¬(array element length).IsInteger := by
  rintro (⟨_, h⟩ | ⟨_, h⟩) <;> cases h

namespace Near

theorem trans (h : a.Near b) (h' : b.Near c) : a.Near c := by
  obtain rfl | ⟨ha, hb⟩ := h
  · exact h'
  · exact .inr ⟨ha, h'.symm.isInteger hb⟩

theorem eq_array {element : HwType} {length : UInt32} (h : a.Near (array element length)) :
    a = array element length :=
  h.resolve_right fun hboth ↦ not_isInteger_array hboth.2

theorem converts (h : a.Near b) (h' : b.Converts c) : a.Converts c := by
  obtain rfl | ⟨ha, hb⟩ := h
  · exact h'
  · obtain rfl | ⟨-, hc⟩ := h'
    · exact .inr ⟨ha, .inl hb⟩
    · exact .inr ⟨ha, hc⟩

end Near

theorem Converts.near (h : a.Converts b) (h' : b.Near c) : a.Converts c := by
  obtain rfl | ⟨ha, hb⟩ := h
  · exact h'.converts (.inl rfl)
  · refine .inr ⟨ha, hb.imp h'.symm.isInteger fun heq ↦ ?_⟩
    obtain rfl | ⟨hb, -⟩ := h'
    · exact heq
    · exact absurd (heq ▸ hb) not_isInteger_boolean

theorem Converts.of_near (h : a.Near b) : a.Converts b :=
  h.converts (.inl rfl)

end HwType

namespace HwExpr

def IsRendered : HwExpr → Prop
  | .resize _ source target => source.IsInteger ∧ (target.IsInteger ∨ target = .boolean)
  | _ => True

def Rendered (e : HwExpr) : Prop := ∀ x ∈ e.nodes, x.IsRendered

theorem rendered_bool (value : Bool) : (HwExpr.bool value).Rendered :=
  List.forall_mem_singleton.2 trivial

theorem rendered_int (value : Int64) (type : HwType) : (HwExpr.int value type).Rendered :=
  List.forall_mem_singleton.2 trivial

theorem rendered_variable (name : String) : (HwExpr.variable name).Rendered :=
  List.forall_mem_singleton.2 trivial

theorem rendered_signal (s : SignalRef) : (HwExpr.signal s).Rendered :=
  List.forall_mem_singleton.2 trivial

variable {e a b : HwExpr}

namespace Rendered

theorem unary (op : HwUnaryOp) (h : e.Rendered) : (HwExpr.unary op e).Rendered :=
  List.forall_mem_cons.2 ⟨trivial, h⟩

theorem binary (op : HwBinaryOp) (type : HwType) (ha : a.Rendered) (hb : b.Rendered) :
    (HwExpr.binary op a b type).Rendered :=
  List.forall_mem_cons.2 ⟨trivial, List.forall_mem_append.2 ⟨ha, hb⟩⟩

theorem index (ha : a.Rendered) (hb : b.Rendered) : (HwExpr.index a b).Rendered :=
  List.forall_mem_cons.2 ⟨trivial, List.forall_mem_append.2 ⟨ha, hb⟩⟩

end Rendered

theorem rendered_all {conditions : List HwExpr} (h : ∀ c ∈ conditions, c.Rendered) :
    (HwExpr.all conditions).Rendered := by
  cases conditions with
  | nil => exact rendered_bool true
  | cons c rest =>
    obtain ⟨hc, hrest⟩ := List.forall_mem_cons.1 h
    unfold HwExpr.all
    dsimp only
    clear h
    induction rest generalizing c with
    | nil => exact hc
    | cons b rest ih =>
      obtain ⟨hb, hothers⟩ := List.forall_mem_cons.1 hrest
      exact ih _ (hc.binary .and .boolean hb) hothers

end HwExpr

theorem Lowered.rendered_coerce {v : Lowered} {t : HwType} (h : v.expr.Rendered)
    (ht : v.type.Converts t) : (v.coerce t).Rendered := by
  obtain ⟨e, type, cost⟩ := v
  unfold coerce HwExpr.coerce
  split
  next => exact h
  next hne =>
    have htop : (HwExpr.resize e type t).IsRendered := ht.resolve_left hne
    have hresize : (HwExpr.resize e type t).Rendered := List.forall_mem_cons.2 ⟨htop, h⟩
    cases e with
    | int value s =>
      dsimp only
      split
      · exact HwExpr.rendered_int value t
      · exact hresize
    | _ => exact hresize

namespace HwStmt

def Rendered (s : HwStmt) : Prop := ∀ e ∈ s.nodes, e.IsRendered

variable {e c a b : HwExpr}

theorem rendered_setVariable {name : String} (h : e.Rendered) :
    (HwStmt.setVariable name e).Rendered :=
  List.forall_mem_append.2 ⟨HwExpr.rendered_variable name, h⟩

theorem rendered_drive {s : SignalRef} (h : e.Rendered) : (HwStmt.drive s e).Rendered :=
  List.forall_mem_append.2 ⟨HwExpr.rendered_signal s, h⟩

theorem rendered_element {array : String} {index : HwExpr} (hi : index.Rendered) (h : e.Rendered) :
    (HwStmt.assign (.element array index) e).Rendered :=
  List.forall_mem_append.2 ⟨List.forall_mem_cons.2 ⟨trivial, hi⟩, h⟩

theorem rendered_choice {name : String} (hc : c.Rendered) (ha : a.Rendered) (hb : b.Rendered) :
    (HwStmt.branch c [.setVariable name a] [.setVariable name b]).Rendered := by
  have hone {e : HwExpr} (h : e.Rendered) : ∀ x ∈ nodesAll [.setVariable name e], x.IsRendered := by
    rw [nodesAll, nodesAll, List.append_nil]
    exact rendered_setVariable h
  exact List.forall_mem_append.2 ⟨hc, List.forall_mem_append.2 ⟨hone ha, hone hb⟩⟩

end HwStmt

theorem forall_mem_modify {α : Type} {as : List α} {P : α → Prop} {f : α → α} (i : Nat)
    (h : ∀ a ∈ as, P a) (hf : ∀ a, P a → P (f a)) : ∀ a ∈ as.modify i f, P a := by
  induction as generalizing i with
  | nil =>
    cases i <;> exact h
  | cons a rest ih =>
    obtain ⟨ha, hrest⟩ := List.forall_mem_cons.1 h
    cases i with
    | zero => exact List.forall_mem_cons.2 ⟨hf a ha, hrest⟩
    | succ i => exact List.forall_mem_cons.2 ⟨ha, ih i hrest⟩

def Block.Rendered (b : Block) : Prop :=
  (∀ s ∈ b.body, s.Rendered) ∧ ∀ c ∈ b.transition.conditions, c.Rendered

def Code.Rendered (code : Code) : Prop := ∀ b ∈ code, b.Rendered

namespace Code.Rendered

variable {code code' : Code}

theorem extend (h : code.Rendered) (i : Nat) {s : HwStmt} (hs : s.Rendered) :
    (code.extend i s).Rendered :=
  forall_mem_modify i h fun _ hb ↦
    ⟨List.forall_mem_append.2 ⟨hb.1, List.forall_mem_singleton.2 hs⟩, hb.2⟩

theorem of_subset (h : code.Rendered) (hwritten : code'.written ⊆ code.written)
    (hconditions : ∀ c ∈ code'.conditions, c ∈ code.conditions ∨ c.Rendered) : code'.Rendered := by
  intro b hb
  refine ⟨fun s hs ↦ ?_, fun c hc ↦ ?_⟩
  · obtain ⟨b₀, hb₀, hs₀⟩ := List.mem_flatMap.1 (hwritten (List.mem_flatMap.2 ⟨b, hb, hs⟩))
    exact (h b₀ hb₀).1 s hs₀
  · obtain hmem | hc := hconditions c (List.mem_flatMap.2 ⟨b, hb, hc⟩)
    · obtain ⟨b₀, hb₀, hc₀⟩ := List.mem_flatMap.1 hmem
      exact (h b₀ hb₀).2 c hc₀
    · exact hc

end Code.Rendered

end Fabric
