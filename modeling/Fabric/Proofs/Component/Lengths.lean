import Fabric.Proofs.Construction.Copies
import Fabric.Proofs.Component.Parallel
import Fabric.Proofs.Component.Refinement
import Fabric.Proofs.Resolution.Lengths

namespace Fabric

theorem TypeRef.length_of_hardware {t : TypeRef} {arrays : ArrayTable} {key member : String}
    {element : HwType} {length : UInt32}
    (h : t.hardware arrays key member = .ok (.array element length)) :
    arrays.get? key = some length := by
  cases t with
  | bool | void | named => cases h
  | int width signed => cases signed <;> cases h
  | array e =>
    rw [hardware.eq_def] at h
    dsimp only at h
    split at h
    · cases h
    · split at h
      · cases h
      next scalar hscalar =>
        unfold ArrayTable.require at h
        cases hlength : arrays.get? key with
        | none =>
          rw [hlength] at h
          cases h
        | some n =>
          rw [hlength] at h
          obtain ⟨-, rfl⟩ := HwType.array.inj (Except.ok.inj h)
          rfl

namespace Draft

structure Measured (arrays : ArrayTable) (member : String) (d : Draft) : Prop where
  frame : d.frame.member = member
  locals : ∀ name x element length, (name, .variable x (.array element length)) ∈ d.frame.locals →
    ∀ n, arrays.get? (memberArrayKey member name) = some n → n = length

namespace Measured

variable {arrays : ArrayTable} {member : String} {d d' : Draft}

theorem ofFrame (h : d.Measured arrays member) (hf : d'.frame = d.frame) :
    d'.Measured arrays member :=
  ⟨hf ▸ h.frame, hf ▸ h.locals⟩

theorem bind (h : d.Measured arrays member) {name x : String} {type : HwType}
    (ht : ∀ element length, type = .array element length →
      ∀ n, arrays.get? (memberArrayKey member name) = some n → n = length) :
    (d.bind name (.variable x type)).Measured arrays member where
  frame := h.frame
  locals other y element length hy := by
    rcases List.mem_cons.1 hy with heq | hy
    · obtain ⟨rfl, hb⟩ := Prod.mk.inj heq
      obtain ⟨-, rfl⟩ := Binding.variable.inj hb
      exact ht element length rfl
    · exact h.locals other y element length hy

theorem length_eq (h : d.Measured arrays member) {name x : String} {element : HwType}
    {length n : UInt32} (hb : d.binding? name = some (.variable x (.array element length)))
    (hn : arrays.get? (memberArrayKey member name) = some n) : n = length :=
  h.locals name x element length (mem_of_lookup hb) n hn

end Measured

end Draft

namespace Lowering

variable {l : Lowering} {expand : Expansion} {d d' : Draft}

theorem frame_parallel {group : NodeId} {count : Expr} {index : String} {call : Expr}
    {results : Option String} (hp : l.parallel group count index call results d = .ok d') :
    d'.frame = d.frame ∨ ∃ name ∈ results, ∃ x element, ∃ n : UInt32,
      d'.frame = (d.bind name (.variable x (.array element
        ((l.program.arrays.get? (memberArrayKey d.frame.member name)).getD n)))).frame := by
  obtain ⟨copies, h, args, batch, d₁, -, -, -, hbatch, hp⟩ := parallel_eq_ok hp
  have hreset : (d₁.withLocals d.frame.locals).frame = d.frame := by
    rw [Draft.withLocals, frame_copies hbatch]
  have hshake := ((d₁.withLocals d.frame.locals).sameContext_handshake batch).frame.trans hreset
  generalize (d₁.withLocals d.frame.locals).handshake batch = shaken at hp hshake
  obtain ⟨-, rfl⟩ | ⟨name, array, element, d₂, rfl, harray, rfl⟩ := hp
  · exact .inl hshake
  · rw [(code_storeResults array element shaken.1 d₂).2]
    obtain ⟨-, -, rfl⟩ | ⟨-, -, -, rfl⟩ := resultArray_eq_ok harray
    · exact .inl hshake
    · let arrayType := HwType.array element
        ((l.program.arrays.get? (memberArrayKey shaken.2.frame.member name)).getD copies)
      let declared := shaken.2.declare name arrayType ("results of " ++ l.program.tree.memberFullName h)
      have hframe : declared.2.frame = shaken.2.frame := (shaken.2.kept_declare name _ _).2.2.frame
      refine .inr ⟨name, rfl, declared.1, element, copies, ?_⟩
      change (declared.2.bind name (.variable declared.1 arrayType)).frame = _
      unfold Draft.bind Draft.withLocals
      rw [hframe, hshake, ← hshake]

theorem nameSteps_measured (l : Lowering) (hexpand : expand.KeepsFrame) (member : String) :
    l.NameSteps expand (fun _ ↦ True)
      fun d d' ↦ d.Measured l.program.arrays member → d'.Measured l.program.arrays member where
  child _ _ := trivial
  trans h h' hd := h' (h hd)
  alike h hd := by
    refine ⟨?_, ?_⟩ <;> rw [h.frame]
    exacts [hd.frame, hd.locals]
  prepare _ _ h hd := hd.ofFrame (frame_prepare hexpand h)
  expr h hd := hd.ofFrame (sameContext_expr h).frame
  bind {id name type init t d d'} comment _ ht h hd := by
    refine ((h hd).ofFrame (d'.kept_declare name t comment).2.2.frame).bind ?_
    rintro element length rfl n hn
    rw [localType, hd.frame] at ht
    exact Option.some.inj (hn.symm.trans (TypeRef.length_of_hardware ht))
  parallel {id count index call results d d'} _ h hd := by
    obtain hframe | ⟨name, -, x, element, n, hframe⟩ := frame_parallel h
    · exact hd.ofFrame hframe
    · refine (hd.bind (x := x) ?_).ofFrame hframe
      intro element' length heq k hk
      obtain ⟨-, rfl⟩ := HwType.array.inj heq
      rw [hd.frame, hk, Option.getD_some]

end Lowering

deriving instance DecidableEq for Binding

namespace Lowering

variable {l : Lowering} {c : Component} {d : Draft}

theorem measured_takeParameters {parameters : List Parameter} {pins : List ComponentPin}
    (h : List.Forall₂ (fun p q ↦ l.pin p = .ok q) parameters pins)
    (hd : d.Measured l.program.arrays l.member.fullName) :
    (pins.foldl Draft.takeParameter d).Measured l.program.arrays l.member.fullName := by
  induction h generalizing d with
  | nil => exact hd
  | @cons p q parameters pins hpin _ ih =>
    obtain ⟨hname, htype⟩ := pin_eq hpin
    let declared := d.declare q.name q.type ("parameter " ++ q.name)
    have hdeclared := hd.ofFrame (d.kept_declare q.name q.type ("parameter " ++ q.name)).2.2.frame
    refine ih ((hdeclared.bind (x := declared.1) ?_).ofFrame rfl)
    rintro element length heq n hn
    rw [heq] at htype
    rw [hname] at hn
    exact Option.some.inj (hn.symm.trans (TypeRef.length_of_hardware htype))

theorem measured_begun (hc : l.component = .ok c) :
    (l.begun c).Measured l.program.arrays l.member.fullName := by
  obtain ⟨code, d, -, hpins, -⟩ := component_eq hc
  refine measured_takeParameters (Synthesis.forall₂_of_mapM hpins) ⟨rfl, fun name x element length h ↦ ?_⟩
  cases h

theorem Planned.fullName_eq (hl : l.Planned) :
    l.member.fullName = l.program.tree.memberFullName l.member.handle := by
  obtain ⟨hids, hnames⟩ := hl.distinct
  obtain ⟨types, config, identity, entries, -, -, hplan, hm⟩ := hl
  obtain ⟨g, counts, hg⟩ := CallPlan.exists_derives hids hnames hplan
  exact hg.fullName_eq hm

theorem Planned.length_of_results (hl : l.Planned) {code : Stmt}
    (hcode : (l.program.tree.method l.member.handle).body = some code) {group : NodeId} {count : Expr}
    {index : String} {call : Expr} {name : String}
    (hs : .parallel group count index call (some name) ∈ code.nodes) {copies : UInt32}
    (hcopies : count.copies = some copies) :
    ∃ length, l.program.arrays.get? (memberArrayKey l.member.fullName name) = some length ∧
      (length = copies ∨ l.program.config.arrayLengths.get?
        (memberArrayKey l.member.fullName name) = some length) := by
  rw [hl.fullName_eq]
  obtain ⟨types, config, identity, entries, -, hprogram, -⟩ := hl
  obtain ⟨hresolve, hconfig⟩ := Program.resolve_of_prepare hprogram
  have hcount : count.asCount = some copies := (Option.filter_eq_some_iff.1 hcopies).1
  rw [hconfig]
  refine SyntaxTree.length_of_observed hresolve hcode hs ?_
  rw [LengthScope.observeStmt, hcount]
  rfl

/-- In the body of a planned member, the stores of a parallel invocation go to cells of the array that is
bound to the name for the results, unless the settings give this array a smaller length than there are
copies. -/
theorem results_fit (hl : l.Planned) (hc : l.component = .ok c) {code : Stmt}
    (hcode : (l.program.tree.method l.member.handle).body = some code) {group : NodeId}
    {count : Expr} {index : String} {call : Expr} {results : Option String}
    (h : l.ComesTo (l.expand (l.stmt noExpansion)) code (l.begun c)
      (.parallel group count index call results) d) (ho : d.isClosed = false) :
    ∃ d' stores, l.stmt (l.expand (l.stmt noExpansion)) (.parallel group count index call results) d =
        .ok d' ∧ d'.written ⊆ c.states.flatMap State.body ∧ d'.stores.Perm (d.stores ++ stores) ∧
      ∀ s ∈ stores, ∃ name ∈ results, ∃ element length i copies,
        d'.binding? name = some (.variable s.array (.array element length)) ∧
        (∃ e ∈ c.declarations, e.name = s.array ∧ e.type = .array element length) ∧
        s.index = .int i (.signed 32) ∧ 0 ≤ i.toInt ∧ count.copies = some copies ∧
        (i.toInt < length.toNat ∨ length < copies ∧ l.program.config.arrayLengths.get?
          (memberArrayKey l.member.fullName name) = some length) := by
  obtain ⟨-, -, e, hstmt', -, hdeclares⟩ := h.inComponent hl hc hcode
  obtain ⟨d', hstmt, hwritten, p, hdiscarded, hkept⟩ := spread_parallel hl hc hcode h ho
  obtain rfl := Except.ok.inj (hstmt.symm.trans hstmt')
  cases results with
  | none =>
    refine ⟨d', [], hstmt, hwritten, ?_, fun s hs ↦ by cases hs⟩
    rw [List.append_nil]
    exact hdiscarded rfl
  | some name =>
    obtain ⟨array, element, length, hbinding, hperm⟩ := hkept name rfl
    refine ⟨d', _, hstmt, hwritten, hperm, fun s hs ↦ ?_⟩
    obtain ⟨t, -, hs⟩ := List.mem_flatMap.1 hs
    obtain ⟨i, hi, rfl⟩ := List.mem_map.1 hs
    have hi : i < p.copies.toNat := List.mem_range.1 hi
    have hsteps := (nameSteps_measured l (keepsFrame_expand l (l.stmt noExpansion))
      l.member.fullName).steps
    have hmeasured := hsteps.stmt trivial hstmt ((h.steps hsteps trivial).2 (measured_begun hc))
    obtain ⟨n, hn, hlength⟩ := hl.length_of_results hcode h.mem p.copies_eq
    obtain rfl := hmeasured.length_eq hbinding hn
    have hindex : (Int64.ofNat i).toInt = i :=
      Int64.toInt_ofNat_of_lt (hi.trans (p.copies.toNat_lt.trans (by decide)))
    refine ⟨name, rfl, element, n, Int64.ofNat i, p.copies, hbinding, hdeclares _ _ _ hbinding, rfl, ?_,
      p.copies_eq, ?_⟩
    · omega
    · rw [hindex]
      by_cases hshort : n < p.copies
      · exact .inr ⟨hshort, hlength.resolve_left (UInt32.ne_of_lt hshort)⟩
      · have hle : p.copies.toNat ≤ n.toNat := UInt32.le_iff_toNat_le.1 (UInt32.not_lt.1 hshort)
        exact .inl (by omega)

end Lowering

theorem results_fit_pair : ∃ (l : Lowering) (c : Component) (code : Stmt) (group : NodeId)
    (count call : Expr), l.Planned ∧ l.component = .ok c ∧
      (l.program.tree.method l.member.handle).body = some code ∧
      l.ComesTo (l.expand (l.stmt Lowering.noExpansion)) code (l.begun c)
        (.parallel group count "i" call (some "r")) (l.begun c) ∧ (l.begun c).isClosed = false ∧
      l.program.config.arrayLengths.get? (memberArrayKey l.member.fullName "r") = none ∧
      ∃ (d' : Draft) (stores : List ElementStore), d'.written ⊆ c.states.flatMap State.body ∧
        d'.stores.Perm ((l.begun c).stores ++ stores) ∧ stores.length = 2 ∧
        ∀ s ∈ stores, ∃ element length i,
          d'.binding? "r" = some (.variable s.array (.array element length)) ∧
          s.index = .int i (.signed 32) ∧ 0 ≤ i.toInt ∧ i.toInt < length.toNat := by
  have hsize : (SyntaxTree.ofTypes (spreadCalls "i" "r")).ids.length ≤ 2 ^ 32 := by decide +kernel
  obtain ⟨l, c, code, group, count, call, e, h, hnone, hbefore, hafter⟩ := exists_pair
    { device := "Zynq-7020" } (p := fun l d d' ↦ l.program.config.arrayLengths.get?
      (memberArrayKey l.member.fullName "r") = none ∧ d.stores.length = 0 ∧ d'.stores.length = 2)
    hsize (by decide +kernel)
  obtain ⟨d', stores, hstmt, hwritten, hperm, hfit⟩ :=
    Lowering.results_fit h.planned h.component h.body h.comes h.opened
  obtain rfl := Except.ok.inj (hstmt.symm.trans h.lowered)
  have hlength := hperm.length_eq
  rw [List.length_append, hbefore, hafter, Nat.zero_add] at hlength
  refine ⟨l, c, code, group, count, call, h.planned, h.component, h.body, h.comes, h.opened, hnone, d',
    stores, hwritten, hperm, hlength.symm, fun s hs ↦ ?_⟩
  obtain ⟨name, hname, element, length, i, copies, hbinding, -, hindex, hpositive, -, hshort⟩ := hfit s hs
  obtain rfl := Option.some.inj hname
  refine ⟨element, length, i, hbinding, hindex, hpositive, hshort.resolve_right ?_⟩
  rintro ⟨-, hget⟩
  rw [hnone] at hget
  cases hget

/-- With settings that give the array for two results one cell, the second result is stored outside of
the array. -/
theorem exists_results_outside : ∃ (l : Lowering) (c : Component) (code : Stmt) (group : NodeId)
    (count call : Expr) (d' : Draft), l.Planned ∧ l.program.config.validate = .ok () ∧
      l.component = .ok c ∧ (l.program.tree.method l.member.handle).body = some code ∧
      l.ComesTo (l.expand (l.stmt Lowering.noExpansion)) code (l.begun c)
        (.parallel group count "i" call (some "r")) (l.begun c) ∧
      l.stmt (l.expand (l.stmt Lowering.noExpansion))
        (.parallel group count "i" call (some "r")) (l.begun c) = .ok d' ∧
      (l.begun c).stores = [] ∧ ∃ s ∈ d'.stores, s.index = .int 1 (.signed 32) ∧
        d'.binding? "r" = some (.variable s.array (.array (.signed 32) 1)) := by
  have hsize : (SyntaxTree.ofTypes (spreadCalls "i" "r")).ids.length ≤ 2 ^ 32 := by decide +kernel
  let config := ({ device := "Zynq-7020" } : Config).withArrayLength "Math.Spread()::r" 1
  obtain ⟨l, c, code, group, count, call, d', h, hvalid, hbefore, hafter⟩ := exists_pair config
    (p := fun l d d' ↦ l.program.config.validate.isOk ∧ d.stores.isEmpty ∧
      ∃ s ∈ d'.stores, s.index = .int 1 (.signed 32) ∧
        d'.binding? "r" = some (.variable s.array (.array (.signed 32) 1))) hsize (by decide +kernel)
  exact ⟨l, c, code, group, count, call, d', h.planned, Config.validate_eq_ok hvalid, h.component,
    h.body, h.comes, h.lowered, List.isEmpty_iff.1 hbefore, hafter⟩

end Fabric
