import Fabric.Proofs.Construction.Call
import Fabric.Proofs.Source.Basic

namespace Fabric

variable {V : Type} (I : Interpretation V)

def Lowered.operand (inputs : SignalRef → V) (values : String → V) (v : Lowered) : Operand V :=
  ⟨v.expr.eval I inputs values, v.type, v.expr.intLiteral?⟩

def callPrefix (callee : String) (number : Nat) : String :=
  callee ++ "." ++ toString number ++ "."

theorem toList_callPrefix (callee : String) (k : Nat) (x : String) :
    (callPrefix callee k ++ x).toList =
      callee.toList ++ '.' :: ((toString k).toList ++ '.' :: x.toList) := by
  have hdot : ".".toList = ['.'] := rfl
  unfold callPrefix
  simp only [String.toList_append, hdot, List.append_assoc, List.singleton_append]
  rfl

/-- The number of an expanded call stands between the two last dots of a name. -/
theorem callPrefix_inj {callee callee' x x' : String} {k k' : Nat} (hx : '.' ∉ x.toList)
    (hx' : '.' ∉ x'.toList) (h : callPrefix callee k ++ x = callPrefix callee' k' ++ x') :
    k = k' := by
  have hreverse := congrArg (fun s : String ↦ s.toList.reverse) h
  simp only [toList_callPrefix, List.reverse_append, List.reverse_cons, List.append_assoc,
    List.singleton_append] at hreverse
  have hplain {x : String} (hx : '.' ∉ x.toList) : ∀ c ∈ x.toList.reverse, c ≠ '.' := by
    rintro c hc rfl
    exact hx (List.mem_reverse.1 hc)
  have hnumber (k : Nat) : ∀ c ∈ (toString k).toList.reverse, c ≠ '.' := by
    rintro c hc rfl
    exact absurd (Text.isDigit_of_mem_toString (List.mem_reverse.1 hc)) (by decide)
  obtain ⟨-, hrest⟩ := append_cons_inj (p := (· ≠ '.')) (hplain hx) (hplain hx')
    (not_not.2 rfl) (not_not.2 rfl) hreverse
  obtain ⟨hdigits, -⟩ := append_cons_inj (p := (· ≠ '.')) (hnumber k) (hnumber k')
    (not_not.2 rfl) (not_not.2 rfl) (List.cons.inj hrest).2
  exact Text.toString_injective (String.toList_inj.1 (List.reverse_injective hdigits))

/-- Where the variables of a member are: what their names start with, and the variable for the result
of a member that is expanded. `calls` are the calls whose results may be known. -/
structure MemberPlace extends Scope where
  qualifier : String
  returnVariable : Option String
  isExpanded : Bool
  calls : List NodeId

def Scope.own (S : Scope) (calls : List NodeId) : MemberPlace := ⟨S, "", none, false, calls⟩

def Scope.Dotless (S : Scope) : Prop :=
  ∀ x type, S.type? x = some type → '.' ∉ x.toList

def Draft.Unused (d : Draft) : Prop :=
  ∀ c ∈ d.declarations, ∀ callee k x, d.expansions < k → '.' ∉ x.toList →
    c.name ≠ callPrefix callee k ++ x

structure Draft.Plain (S : MemberPlace) (d : Draft) : Prop where
  known : ∀ id, (d.result? id).isSome → id ∈ S.calls
  qualifier : d.frame.qualifier = S.qualifier
  returnVariable : d.frame.returnVariable = S.returnVariable
  isExpanded : d.frame.isExpanded = S.isExpanded
  returnType : d.frame.returnType = S.result
  locals : ∀ p ∈ d.frame.locals,
    ∃ type, p.2 = .variable (S.qualifier ++ p.1) type ∧ S.type? p.1 = some type
  declared : ∀ c ∈ d.declarations, ∀ x type, c.name = S.qualifier ++ x → S.type? x = some type →
    c.type = type
  /-- The call that is at hand has its number. -/
  number : S.qualifier = "" ∨ ∃ callee, ∃ k ≤ d.expansions, S.qualifier = callPrefix callee k
  unused : S.Dotless → d.Unused

def MemberPlace.Sees {V : Type} (S : MemberPlace) (values source : String → V) : Prop :=
  ∀ x type, S.type? x = some type → values (S.qualifier ++ x) = source x

def HwExpr.IsScalar (e : HwExpr) : Prop :=
  ∀ value type, e = .int value type → type.element? = none

namespace HwExpr

theorem isScalar_bool (value : Bool) : (HwExpr.bool value).IsScalar := nofun

theorem isScalar_variable (name : String) : (HwExpr.variable name).IsScalar := nofun

theorem intLiteral?_int {value : Int64} {type : HwType} (h : type.element? = none) :
    (HwExpr.int value type).intLiteral? = some value := by
  cases type with
  | array => exact nomatch h
  | _ => rfl

theorem eval_coerce {e : HwExpr} (he : e.IsScalar) (inputs : SignalRef → V) (values : String → V)
    (source target : HwType) :
    (e.coerce source target).eval I inputs values =
      (Operand.convert I ⟨e.eval I inputs values, source, e.intLiteral?⟩ target).value := by
  unfold coerce Operand.convert
  split
  · rfl
  · cases e with
    | int value type =>
      rw [intLiteral?_int (he value type rfl), Option.filter_some]
      dsimp only
      split <;> rfl
    | _ => rfl

end HwExpr

namespace TypeRef

theorem element?_scalarHardware? {t : TypeRef} {type : HwType} (h : t.scalarHardware? = some type) :
    type.element? = none := by
  cases t with
  | bool =>
    obtain rfl := Option.some.inj h
    rfl
  | int width signed =>
    obtain rfl := Option.some.inj h
    cases signed <;> rfl
  | _ => exact nomatch h

/-- A scalar type does not depend on the lengths of arrays. -/
theorem hardware_scalar {arrays : ArrayTable} {key member : String} {t : TypeRef} {type : HwType}
    (h : t.hardware arrays key member = .ok type) (hs : t.scalarHardware?.isSome) :
    t.scalarHardware? = some type := by
  cases t with
  | bool | int => exact congrArg some (Except.ok.inj h)
  | _ => exact nomatch hs

end TypeRef

namespace Lowered

variable {I} {inputs : SignalRef → V} {values : String → V}

theorem eval_coerce {v : Lowered} (hv : v.expr.IsScalar) (target : HwType) :
    (v.coerce target).eval I inputs values =
      ((v.operand I inputs values).convert I target).value :=
  v.expr.eval_coerce I hv inputs values v.type target

theorem isScalar_coerce {v : Lowered} (hv : v.expr.IsScalar) {target : HwType}
    (ht : target.element? = none) : (v.coerce target).IsScalar := by
  intro value type he
  unfold coerce HwExpr.coerce at he
  split at he
  · exact hv value type he
  · split at he
    · split at he
      · obtain ⟨-, rfl⟩ := HwExpr.int.inj he
        exact ht
      · exact nomatch he
    · exact nomatch he

theorem operand_coerce {v : Lowered} (hv : v.expr.IsScalar) {target : HwType}
    (ht : target.element? = none) (cost : Binary64) :
    (Lowered.mk (v.coerce target) target cost).operand I inputs values =
      (v.operand I inputs values).convert I target := by
  unfold operand coerce HwExpr.coerce Operand.convert
  dsimp only
  split
  next h => rw [h]
  next =>
    cases he : v.expr with
    | int value type =>
      rw [HwExpr.intLiteral?_int (hv value type he), Option.filter_some]
      dsimp only
      split
      · rw [HwExpr.intLiteral?_int ht]
        rfl
      · rfl
    | _ => rfl

end Lowered

namespace Lowering

variable {I} {l : Lowering} {d d' : Draft} {S : Scope} {inputs : SignalRef → V}
  {values : String → V}

theorem operand_unary {op : UnaryOp} {v w : Lowered} (h : l.unary op v = .ok w) :
    w.expr.IsScalar ∧ ∀ inputs (values : String → V), (v.operand I inputs values).unary I op =
      some (w.operand I inputs values) := by
  obtain ⟨hneg, cost, rfl⟩ := unary_eq_ok h
  exact ⟨nofun, fun _ _ ↦ if_neg hneg⟩

theorem meet_operands {op : BinaryOp} {a b : Lowered} {type : HwType}
    (h : l.operands op a b = .ok type) :
    Operand.meet op (a.operand I inputs values) (b.operand I inputs values) = some type := by
  obtain ⟨htype, hboolean⟩ := operands_eq_ok h
  unfold Operand.meet
  split at htype
  next hlogical =>
    obtain ⟨ha, hb, rfl⟩ := htype
    rw [if_pos hlogical]
    exact if_pos ⟨ha, hb⟩
  next hlogical =>
    rw [if_neg hlogical]
    refine Option.filter_eq_some_iff.2 ⟨htype, ?_⟩
    simpa [← imp_iff_not_or] using hboolean

theorem operand_binary {op : BinaryOp} {a b w : Lowered} (ha : a.expr.IsScalar)
    (hb : b.expr.IsScalar) (h : l.binary op a b = .ok w) :
    w.expr.IsScalar ∧ ∀ inputs (values : String → V), Operand.binary I op
      (a.operand I inputs values) (b.operand I inputs values) = some (w.operand I inputs values) := by
  unfold Operand.binary
  obtain ⟨hshift, cost, rfl⟩ | ⟨hshift, type, cost, ht, rfl⟩ := binary_eq_ok h
  · exact ⟨nofun, fun _ _ ↦ if_pos hshift⟩
  · refine ⟨nofun, fun inputs values ↦ ?_⟩
    rw [if_neg hshift, meet_operands ht, Option.map_some]
    refine congrArg some ?_
    simp only [Lowered.operand, HwExpr.eval, Lowered.eval_coerce ha, Lowered.eval_coerce hb]
    rfl

end Lowering

namespace Expr.IsSimple

variable {e c : Expr}

theorem child (h : e.IsSimple) (hc : c ∈ e.children) : c.IsSimple :=
  fun n hn ↦ h n (nodes_subset_of_mem_children hc hn)

end Expr.IsSimple

structure Expr.IsSimpleBeside (calls : List NodeId) (e : Expr) : Prop where
  simple : e.IsSimple
  apart : ∀ n ∈ e.nodes, n.id ∉ calls

namespace Expr.IsSimpleBeside

variable {calls : List NodeId} {e c : Expr}

theorem of_nil (h : e.IsSimple) : e.IsSimpleBeside [] := ⟨h, fun _ _ ↦ List.not_mem_nil⟩

theorem child (h : e.IsSimpleBeside calls) (hc : c ∈ e.children) : c.IsSimpleBeside calls :=
  ⟨h.simple.child hc, fun n hn ↦ h.apart n (nodes_subset_of_mem_children hc hn)⟩

end Expr.IsSimpleBeside

namespace Draft.Plain

variable {d : Draft} {S : MemberPlace}

theorem result? (h : d.Plain S) {id : NodeId} (hid : id ∉ S.calls) : d.result? id = none := by
  by_contra hne
  exact hid (h.known id (Option.isSome_iff_ne_none.2 hne))

theorem lookup {l : Lowering} (h : d.Plain S) {name : String} {b : Binding}
    (hb : l.lookup d name = .ok b) :
    ∃ type, b = .variable (S.qualifier ++ name) type ∧ S.type? name = some type :=
  h.locals (name, b) (mem_of_lookup (Lowering.require_eq_ok.1 hb))

theorem of_eq {d' : Draft} (h : d.Plain S) (hr : d'.results = d.results) (hf : d'.frame = d.frame)
    (hd : d'.declarations = d.declarations) (hn : d'.expansions = d.expansions) : d'.Plain S := by
  obtain ⟨hknown, hq, hv, hx, ht, hl, hdeclared, hnumber, hunused⟩ := h
  have hresult : d'.result? = d.result? := by
    unfold Draft.result?
    rw [hr]
  rw [← hresult] at hknown
  rw [← hf] at hq hv hx ht hl
  rw [← hd] at hdeclared
  rw [← hn] at hnumber
  unfold Draft.Unused at hunused
  rw [← hd, ← hn] at hunused
  exact ⟨hknown, hq, hv, hx, ht, hl, hdeclared, hnumber, hunused⟩

theorem of_sameScope {d' : Draft} (h : d.Plain S) (hs : d.SameScope d') : d'.Plain S :=
  h.of_eq hs.results hs.frame hs.declarations hs.expansions

theorem isPending {e : Expr} (he : e.IsSimple) : d.isPending e = false := by
  induction e using Expr.induction with
  | literal | getLocal | getParameter => simp [Draft.isPending]
  | unary id op operand ih => simp [Draft.isPending, ih (he.child (by simp [Expr.children]))]
  | binary id op lhs rhs ihl ihr =>
    simp [Draft.isPending, ihl (he.child (by simp [Expr.children])),
      ihr (he.child (by simp [Expr.children]))]
  | cast id type operand ih => simp [Draft.isPending, ih (he.child (by simp [Expr.children]))]
  | _ => exact (he _ (Expr.mem_nodes_self _)).elim

end Draft.Plain

namespace Lowering

variable {I} {l : Lowering} {d d' : Draft} {S : MemberPlace} {e : Expr} {v : Lowered}

theorem prepare_simple (expand : Expansion) (he : e.IsSimple) (d : Draft) :
    l.prepare expand e d = .ok d := by
  have hready : d.ready e = ⟨[], none⟩ := by
    cases e <;> rw [Draft.ready, Draft.Plain.isPending he] <;> rfl
  rw [prepare, prepareUpTo, hready]

/-- What a simple expression is lowered to means what the expression does. -/
theorem expr_simple (hd : d.Plain S) (he : e.IsSimpleBeside S.calls)
    (h : l.expr e d = .ok (v, d')) :
    d' = d ∧ v.expr.IsScalar ∧ ∀ inputs (values source : String → V), S.Sees values source →
      e.denote I S.toScope source = some (v.operand I inputs values) := by
  rw [expr_eq_ok] at h
  induction h with
  | @known e d v hr =>
    rw [hd.result? (he.apart e e.mem_nodes_self)] at hr
    cases hr
  | @literal d id value =>
    cases value with
    | bool value => exact ⟨rfl, HwExpr.isScalar_bool value, fun _ _ _ _ ↦ rfl⟩
    | int value width signed =>
      have ht : (HwType.scalar width signed).element? = none := by cases signed <;> rfl
      refine ⟨rfl, fun n type hn ↦ ?_, fun _ _ _ _ ↦ ?_⟩
      · obtain ⟨-, rfl⟩ := HwExpr.int.inj hn
        exact ht
      · simp only [Expr.denote, Operand.ofLiteral, Lowered.ofLiteral, Lowered.free, Lowered.operand,
          HwExpr.eval, HwExpr.intLiteral?_int ht]
  | getLocal _ hb | getParameter _ hb =>
    obtain ⟨type, rfl, htype⟩ := hd.lookup hb
    refine ⟨rfl, HwExpr.isScalar_variable _, fun _ _ source hsees ↦ ?_⟩
    rw [Expr.denote, htype, Option.map_some, ← hsees _ type htype]
    rfl
  | unary _ _ hw ih =>
    obtain ⟨rfl, -, hdenote⟩ := ih hd (he.child (by simp [Expr.children]))
    obtain ⟨hscalar, hunary⟩ := operand_unary (I := I) hw
    refine ⟨rfl, hscalar, fun inputs values source hsees ↦ ?_⟩
    rw [Expr.denote, hdenote inputs values source hsees, Option.bind_some, hunary]
  | binary _ _ _ hw iha ihb =>
    obtain ⟨rfl, hscalara, hdenotea⟩ := iha hd (he.child (by simp [Expr.children]))
    obtain ⟨rfl, hscalarb, hdenoteb⟩ := ihb hd (he.child (by simp [Expr.children]))
    obtain ⟨hscalar, hbinary⟩ := operand_binary (I := I) hscalara hscalarb hw
    refine ⟨rfl, hscalar, fun inputs values source hsees ↦ ?_⟩
    rw [Expr.denote, hdenotea inputs values source hsees, hdenoteb inputs values source hsees,
      Option.bind_some, Option.bind_some, hbinary]
  | cast _ ht _ _ ih =>
    obtain ⟨rfl, hscalar, hdenote⟩ := ih hd (he.child (by simp [Expr.children]))
    have helement := TypeRef.element?_scalarHardware? ht
    refine ⟨rfl, Lowered.isScalar_coerce hscalar helement, fun inputs values source hsees ↦ ?_⟩
    rw [Expr.denote, ht, Option.bind_some, hdenote inputs values source hsees, Option.map_some,
      Lowered.operand_coerce hscalar helement]
  | _ => exact (he.simple _ (Expr.mem_nodes_self _)).elim

end Lowering

end Fabric
