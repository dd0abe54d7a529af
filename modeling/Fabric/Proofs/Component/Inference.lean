import Fabric.Proofs.Calls.Demand
import Fabric.Proofs.Construction.Reached

namespace Fabric

namespace Lowering

variable {l : Lowering} {d d' : Draft}

theorem Planned.containsCall_of_isInlined (hl : l.Planned) {h : MemberHandle}
    (hh : l.plan.isInlined h) {s : Stmt} (hs : (l.program.tree.method h).body = some s) :
    s.containsCall = false := by
  obtain ⟨hids, hnames⟩ := hl.distinct
  obtain ⟨types, config, identity, entries, -, -, hplan, -⟩ := hl
  obtain ⟨g, counts, hd⟩ := CallPlan.exists_derives hids hnames hplan
  exact (affords_expanded (CallGraph.spans_ofEntryPoints hd.graph) hd.follows hids hh hs).2

theorem Reached.prepare (hd : l.Reached d) {e : Expr} (he : e ∈ l.program.tree.exprNodes)
    (h : l.prepare (l.expand (l.stmt noExpansion)) e d = .ok d') : l.Reached d' :=
  hd.work (works_prepare (works_expandBody fun _ _ _ hs ↦ SyntaxTree.callsAmong_exprNodes hs)
    (fun _ hn _ ↦ SyntaxTree.nodes_subset_exprNodes he hn) h)

/-- In a draft that is reached, a type is inferred for every expression that is lowered there. Its
value has that type unless an operand that decides it is a constant without being a literal, and then
both types are of integers, or the inference fails because it compares a constant with an operand of the
signed type without bits. What is inferred stays the same while calls are evaluated. -/
theorem infer_of_reached (hl : l.Planned) (hd : l.Reached d) :
    (∀ e v d', l.expr e d = .ok (v, d') →
      (∃ t, l.infer d e = .ok t ∧ (t = v.type ∨ t.IsInteger ∧ v.type.IsInteger) ∧
        (d.hasHidden e = false → t = v.type)) ∨
      d.hasHidden e = true ∧ v.type.IsInteger ∧ (∃ x ∈ e.nodes, l.infer d x = .ok (.signed 0)) ∧
        l.infer d e = .error (.fault .underflow)) ∧
    ∀ e ∈ l.program.tree.exprNodes, ∀ d',
      l.prepare (l.expand (l.stmt noExpansion)) e d = .ok d' → l.infer d' e = l.infer d e := by
  refine ⟨fun e v d' h ↦ infer_of_expr hd.regular h, fun e he d' h ↦ ?_⟩
  have hapart := SyntaxTree.apart_exprNodes hl.distinct.1
  have hsub := SyntaxTree.nodes_subset_exprNodes he
  have hlearn : l.Learns _ l.program.tree.exprNodes d d' := learns_prepare
    (quiet_expandBody fun h hh s hs ↦ hl.containsCall_of_isInlined hh hs) (fun n hn _ ↦ hsub hn) h
  exact (infer_learns hapart (fun n hn ↦ SyntaxTree.nodes_subset_exprNodes hn) hlearn
    (hd.recorded hapart)).2 e hsub

end Lowering

def Program.sum? (p : Program) : Option Expr :=
  p.tree.exprNodes.find? fun e ↦
    match e with
    | .binary _ .add _ _ => true
    | _ => false

def preparedSum : Synthesis (Lowering × Expr × Draft × Draft × Lowered × Draft) := do
  let l ← pairedCaller
  let e ← l.require "sum" l.program.sum?
  let d := (Draft.empty l.member.fullName none).begin [⟨"x", .signed 32⟩]
  let d₁ ← l.prepare (l.expand (l.stmt Lowering.noExpansion)) e d
  let (v, d₂) ← l.expr e d₁
  return (l, e, d, d₁, v, d₂)

theorem infer_preparedSum : ∃ (l : Lowering) (e : Expr) (d d₁ d₂ : Draft) (v : Lowered),
    l.Planned ∧ l.Reached d ∧ e ∈ l.program.tree.exprNodes ∧ d.isPending e = true ∧
      l.prepare (l.expand (l.stmt Lowering.noExpansion)) e d = .ok d₁ ∧
      l.expr e d₁ = .ok (v, d₂) ∧ v.type = .signed 32 ∧
      l.infer d₁ e = .ok (.signed 32) ∧ l.infer d e = .ok (.signed 32) := by
  have hsize : (SyntaxTree.ofTypes pairedCalls).ids.length ≤ 2 ^ 32 := by decide +kernel
  have hcheck : Synthesis.check preparedSum (fun (_, e, d, d₁, v, _) ↦
      v.type = .signed 32 ∧ d.isPending e = true ∧ d₁.hasHidden e = false) = true := by
    decide +kernel
  obtain ⟨x, hx, hcheck⟩ := Synthesis.check_eq_true.1 hcheck
  obtain ⟨l, hl, hx⟩ := Synthesis.bind_eq_ok.1 hx
  obtain ⟨e, he, hx⟩ := Synthesis.bind_eq_ok.1 hx
  obtain ⟨d₁, hprepare, hx⟩ := Synthesis.bind_eq_ok.1 hx
  obtain ⟨⟨v, d₂⟩, hexpr, hx⟩ := Synthesis.bind_eq_ok.1 hx
  obtain rfl := Except.ok.inj hx
  obtain ⟨htype, hpending, hclear⟩ := of_decide_eq_true hcheck
  have hplanned := Lowering.planned_ofTypes hsize hl
  have hmem := List.mem_of_find?_eq_some (Lowering.require_eq_ok.1 he)
  have hd := Lowering.Reached.start (l := l) none [⟨"x", .signed 32⟩]
  have hd₁ := hd.prepare hmem hprepare
  obtain ⟨t, hinfer, -, ht⟩ | ⟨hhidden, -⟩ :=
    (Lowering.infer_of_reached hplanned hd₁).1 e v d₂ hexpr
  swap
  · rw [hclear] at hhidden
    cases hhidden
  rw [ht hclear, htype] at hinfer
  refine ⟨l, e, _, d₁, d₂, v, hplanned, hd, hmem, hpending, hprepare, hexpr, htype, hinfer, ?_⟩
  rw [← (Lowering.infer_of_reached hplanned hd).2 e hmem d₁ hprepare, hinfer]

def indexedCalls : List TypeDecl :=
  let word : TypeRef := .int 16 false
  let x : Expr := .getParameter 0 "x"
  let sum : Expr := .binary 0 .add (.getLocal 0 "i") x
  let argument : Expr := .conditional 0 (.getParameter 0 "c") sum x
  [{ fullName := "Math"
     methods :=
      [{ name := "Spread", parameters := [⟨"c", .bool⟩, ⟨"x", word⟩], returnType := .void
         body := some (.parallel 0 (.literal 0 (.i32 2)) "i"
          (.call 0 ⟨"Math", "Use", [word]⟩ [argument]) none) },
       { name := "Use", parameters := [⟨"y", word⟩], returnType := word
         body := some (.ret 0 (some (.getParameter 0 "y"))) }] }]

def indexedSum : Synthesis (Lowering × Component × Expr × Draft × Lowered × Draft) := do
  let l ← Lowering.ofTypes indexedCalls { device := "Zynq-7020" } [⟨0, 0⟩] "Math.Spread(bool,u16)"
  let c ← l.component
  let e ← l.require "sum" l.program.sum?
  let d := ((Draft.empty l.member.fullName c.returnType).begin c.parameters).bind "i"
    (.constant (.int (Int64.ofNat 0) (.signed 32)) (.signed 32))
  let (v, d') ← l.expr e d
  return (l, c, e, d, v, d')

/-- The sum of a parallel index and a word is lowered to a word, but the inferred type is that of the
index, and so is the type of the temporary for the conditional around it. -/
theorem exists_infer_ne : ∃ (l : Lowering) (c : Component) (e : Expr) (d d' : Draft) (v : Lowered),
    l.Planned ∧ l.component = .ok c ∧ l.Reached d ∧ e ∈ l.program.tree.exprNodes ∧
      l.expr e d = .ok (v, d') ∧ v.type = .unsigned 16 ∧ l.infer d e = .ok (.signed 32) ∧
      ⟨"temp.0", .signed 32, some "conditional value"⟩ ∈ c.declarations := by
  have hsize : (SyntaxTree.ofTypes indexedCalls).ids.length ≤ 2 ^ 32 := by decide +kernel
  have hcheck : Synthesis.check indexedSum (fun (l, c, e, d, v, _) ↦ v.type = .unsigned 16 ∧
      Synthesis.check (l.infer d e) (fun t ↦ t = .signed 32) = true ∧
      ⟨"temp.0", .signed 32, some "conditional value"⟩ ∈ c.declarations) = true := by
    decide +kernel
  obtain ⟨x, hx, hcheck⟩ := Synthesis.check_eq_true.1 hcheck
  obtain ⟨l, hl, hx⟩ := Synthesis.bind_eq_ok.1 hx
  obtain ⟨c, hc, hx⟩ := Synthesis.bind_eq_ok.1 hx
  obtain ⟨e, he, hx⟩ := Synthesis.bind_eq_ok.1 hx
  obtain ⟨⟨v, d'⟩, hexpr, hx⟩ := Synthesis.bind_eq_ok.1 hx
  obtain rfl := Except.ok.inj hx
  obtain ⟨htype, hinfer, hdeclared⟩ := of_decide_eq_true hcheck
  obtain ⟨t, hinfer, ht⟩ := Synthesis.check_eq_true.1 hinfer
  obtain rfl := of_decide_eq_true ht
  refine ⟨l, c, e, _, d', v, Lowering.planned_ofTypes hsize hl, hc, ?_,
    List.mem_of_find?_eq_some (Lowering.require_eq_ok.1 he), hexpr, htype, hinfer, hdeclared⟩
  exact (Lowering.Reached.start c.returnType c.parameters).work (.index _ "i" 0)

end Fabric
