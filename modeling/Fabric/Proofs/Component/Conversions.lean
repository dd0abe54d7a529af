import Fabric.Proofs.Component.Lengths
import Fabric.Proofs.Construction.Conversions

namespace Fabric

theorem State.isRendered_of_block {s : State DraftTarget} (h : s.block.Rendered) {f : DraftTarget → StateId}
    {e : HwExpr} (he : e ∈ (s.rename f).nodes) : e.IsRendered := by
  have hbody (ss : List HwStmt) (hs : ∀ x ∈ ss, x.Rendered) : ∀ e ∈ HwStmt.nodesAll ss, e.IsRendered := by
    induction ss with
    | nil => exact List.forall_mem_nil _
    | cons x rest ih =>
      obtain ⟨hx, hrest⟩ := List.forall_mem_cons.1 hs
      exact List.forall_mem_append.2 ⟨hx, ih hrest⟩
  obtain he | he := List.mem_append.1 he
  · exact hbody s.body h.1 e he
  · have ht := h.2
    revert ht he
    unfold State.rename State.block
    cases s.transition with
    | goto => exact fun he ↦ absurd he List.not_mem_nil
    | branch c | waitFor c => exact fun he ht ↦ ht c List.mem_cons_self e he

namespace Draft

variable {K : Kinding} {member : String} {result : Option HwType}

theorem kinded_begin (K : Kinding) (member : String) (result : Option HwType) :
    ((empty member result).begin []).Kinded K member result where
  named := rfl
  returning := rfl
  regular := Lowering.regular_begin member result []
  locals name b hb := by cases hb
  results id v hv := by cases hv
  rendered := List.forall_mem_cons.2
    ⟨⟨List.forall_mem_singleton.2 (HwStmt.rendered_drive (HwExpr.rendered_bool false)),
      List.forall_mem_singleton.2 (HwExpr.rendered_signal _)⟩,
    List.forall_mem_singleton.2 ⟨List.forall_mem_nil _, List.forall_mem_nil _⟩⟩

theorem Kinded.complete {d : Draft} (h : d.Kinded K member result) {s : State StateId}
    (hs : s ∈ d.complete) {e : HwExpr} (he : e ∈ s.nodes) : e.IsRendered := by
  obtain ⟨x, hx, rfl⟩ | rfl := mem_complete hs
  · exact State.isRendered_of_block (h.rendered x.block (List.mem_map_of_mem hx)) he
  · refine State.isRendered_of_block (s := lastState d.nextState) ⟨?_, ?_⟩ he
    · exact List.forall_mem_singleton.2 (HwStmt.rendered_drive (HwExpr.rendered_bool true))
    · exact List.forall_mem_singleton.2 ((HwExpr.rendered_signal _).unary .not)

end Draft

namespace Lowering

variable {l : Lowering} {K : Kinding} {c : Component} {d : Draft} {result : Option HwType}

theorem kinded_takeParameters {parameters : List Parameter} {pins : List ComponentPin}
    (hpins : List.Forall₂ (fun p q ↦ l.pin p = .ok q) parameters pins)
    (hparameters : ∀ p ∈ parameters, ∀ t, l.parameterType l.member.fullName p = .ok t →
      t.Near (K.name l.member.fullName p.name))
    (hd : d.Kinded K l.member.fullName result) :
    (pins.foldl Draft.takeParameter d).Kinded K l.member.fullName result := by
  induction hpins generalizing d with
  | nil => exact hd
  | @cons p q parameters pins hpin _ ih =>
    obtain ⟨hp, hrest⟩ := List.forall_mem_cons.1 hparameters
    obtain ⟨hname, htype⟩ := pin_eq hpin
    have hset : (HwStmt.setVariable (d.declare q.name q.type ("parameter " ++ q.name)).1
        (.signal (.own (.parameter q.name)))).Rendered :=
      HwStmt.rendered_setVariable (HwExpr.rendered_signal _)
    exact ih hrest (((hd.declare q.name q.type _).bind (.inl ⟨_, _, rfl⟩)
      (hname ▸ hp q.type htype)).push hset)

/-- In the component of a planned member, conversions are from numbers to numbers or to booleans, if the
members of the program suit a kinding. -/
theorem isInteger_of_resize (hl : l.Planned) (hK : ∀ h ∈ l.program.tree.handles, K.AdmitsMember l h)
    (hc : l.component = .ok c) {s : State StateId} (hs : s ∈ c.states) {e : HwExpr}
    {source target : HwType} (he : .resize e source target ∈ s.nodes) :
    source.IsInteger ∧ (target.IsInteger ∨ target = .boolean) := by
  obtain ⟨code, d, hcode, hpins, hresult, hbody, -, hstates, -⟩ := component_eq hc
  obtain ⟨hparameters, hstmts⟩ := hK _ (mem_handles_of_body hcode)
  rw [← hl.fullName_eq] at hparameters hstmts
  rw [Draft.begin_eq] at hbody
  have hbegun := kinded_takeParameters (Synthesis.forall₂_of_mapM hpins) hparameters
    (Draft.kinded_begin K l.member.fullName c.returnType)
  have hd := (steps_kinded (kinded_expand hK) l.member.fullName c.returnType).stmt
    (hstmts code hcode c.returnType hresult) hbody hbegun
  exact hd.complete (hstates ▸ hs) he

end Lowering

def widenedNumber : List TypeDecl :=
  let number : TypeRef := .int 32 true
  let x : Expr := .getParameter 0 "x"
  [{ fullName := "Math"
     methods :=
      [{ name := "Widen", parameters := [⟨"x", .int 16 true⟩], returnType := number
         body := some (.block 0
          [.branch 0 x (.ret 0 (some (.call 0 ⟨"Math", "Same", [number]⟩ [x]))) none,
           .ret 0 (some x)]) },
       { name := "Same", parameters := [⟨"y", number⟩], returnType := number
         body := some (.ret 0 (some (.getParameter 0 "y"))) }] }]

def Kinding.numbers : Kinding where
  node _ := .signed 32
  name _ _ := .signed 32

def Component.conversions (c : Component) : List (HwType × HwType) :=
  (c.states.flatMap State.nodes).filterMap fun
    | .resize _ source target => some (source, target)
    | _ => none

theorem Component.exists_resize_of_mem_conversions {c : Component} {source target : HwType}
    (h : (source, target) ∈ c.conversions) :
    ∃ s ∈ c.states, ∃ e, .resize e source target ∈ s.nodes := by
  obtain ⟨x, hx, heq⟩ := List.mem_filterMap.1 h
  obtain ⟨s, hs, hx⟩ := List.mem_flatMap.1 hx
  split at heq
  · obtain ⟨rfl, rfl⟩ := Prod.mk.inj (Option.some.inj heq)
    exact ⟨s, hs, _, hx⟩
  · cases heq

theorem isInteger_of_resize_widened : ∃ (l : Lowering) (c : Component), l.Planned ∧
    (∀ h ∈ l.program.tree.handles, Kinding.numbers.AdmitsMember l h) ∧ l.component = .ok c ∧
      (.signed 16, .boolean) ∈ c.conversions ∧ (.signed 16, .signed 32) ∈ c.conversions ∧
      ∀ source target, (source, target) ∈ c.conversions →
        source.IsInteger ∧ (target.IsInteger ∨ target = .boolean) := by
  have hsize : (SyntaxTree.ofTypes widenedNumber).ids.length ≤ 2 ^ 32 := by decide +kernel
  have hcheck : Synthesis.check (do
      let l ← Lowering.ofTypes widenedNumber { device := "Zynq-7020" } [⟨0, 0⟩] "Math.Widen(i16)"
      return (l, ← l.component)) (fun (l, c) ↦
        (∀ h ∈ l.program.tree.handles, Kinding.numbers.AdmitsMember l h) ∧
          (.signed 16, .boolean) ∈ c.conversions ∧ (.signed 16, .signed 32) ∈ c.conversions) = true := by
    decide +kernel
  obtain ⟨x, hx, hcheck⟩ := Synthesis.check_eq_true.1 hcheck
  obtain ⟨l, hl, hx⟩ := Synthesis.bind_eq_ok.1 hx
  obtain ⟨c, hc, hx⟩ := Synthesis.bind_eq_ok.1 hx
  obtain rfl := Except.ok.inj hx
  obtain ⟨hK, hboolean, hwide⟩ := of_decide_eq_true hcheck
  have hplanned := Lowering.planned_ofTypes hsize hl
  refine ⟨l, c, hplanned, hK, hc, hboolean, hwide, fun source target h ↦ ?_⟩
  obtain ⟨s, hs, e, he⟩ := Component.exists_resize_of_mem_conversions h
  exact Lowering.isInteger_of_resize hplanned hK hc hs he

def copiedArray : List TypeDecl :=
  let number : TypeRef := .int 32 true
  [{ fullName := "Math"
     methods :=
      [{ name := "Copy", parameters := [], returnType := number
         body := some (.block 0
          [.declare 0 "a" (.array number) (some (.newArray 0 number (.literal 0 (.i32 4)))),
           .declare 0 "b" (.array number) (some (.getLocal 0 "a")),
           .ret 0 (some (.arrayElement 0 (.getLocal 0 "b") (.literal 0 (.i32 0))))]) }] }]

/-- If the settings give the array that is set eight elements, then the component has a conversion between
arrays of different lengths. -/
theorem exists_array_conversion : ∃ (config : Config) (l : Lowering) (c : Component),
    config.validate = .ok () ∧ l.program.config = config ∧ l.Planned ∧ l.component = .ok c ∧
      ∃ s ∈ c.states, ∃ e,
        .resize e (.array (.signed 32) 4) (.array (.signed 32) 8) ∈ s.nodes := by
  have hsize : (SyntaxTree.ofTypes copiedArray).ids.length ≤ 2 ^ 32 := by decide +kernel
  let config := ({ device := "Zynq-7020" } : Config).withArrayLength "Math.Copy()::b" 8
  have hcheck : Synthesis.check (do
      let l ← Lowering.ofTypes copiedArray config [⟨0, 0⟩] "Math.Copy()"
      return (l, ← l.component)) (fun (l, c) ↦ l.program.config.validate.isOk ∧
        (.array (.signed 32) 4, .array (.signed 32) 8) ∈ c.conversions) = true := by
    decide +kernel
  obtain ⟨x, hx, hcheck⟩ := Synthesis.check_eq_true.1 hcheck
  obtain ⟨l, hl, hx⟩ := Synthesis.bind_eq_ok.1 hx
  obtain ⟨c, hc, hx⟩ := Synthesis.bind_eq_ok.1 hx
  obtain rfl := Except.ok.inj hx
  obtain ⟨hvalid, hmem⟩ := of_decide_eq_true hcheck
  exact ⟨l.program.config, l, c, Config.validate_eq_ok hvalid, rfl, Lowering.planned_ofTypes hsize hl, hc,
    Component.exists_resize_of_mem_conversions hmem⟩

end Fabric
