import Fabric.Proofs.Construction.Context
import Fabric.Proofs.Construction.Course

namespace Fabric

def Binding.index (i : Nat) : Binding := .constant (.int (Int64.ofNat i) (.signed 32)) (.signed 32)

namespace Draft

/-- Drafts in which all names and results stand for the same. -/
structure Agrees (d d' : Draft) : Prop where
  bindings : ∀ name, d'.binding? name = d.binding? name
  results : d'.results = d.results

variable {d d' d'' : Draft}

namespace Agrees

theorem trans (h : d.Agrees d') (h' : d'.Agrees d'') : d.Agrees d'' :=
  ⟨fun name ↦ (h'.bindings name).trans (h.bindings name), h'.results.trans h.results⟩

theorem ofContext (h : d.SameContext d') : d.Agrees d' :=
  ⟨fun name ↦ by rw [binding?, h.frame, binding?], h.results⟩

end Agrees

theorem binding?_bind_ne (d : Draft) {name x : String} (hx : x ≠ name) (b : Binding) :
    (d.bind name b).binding? x = d.binding? x := by
  have hne : (x == name) = false := by simpa using hx
  unfold Draft.bind Draft.binding? Draft.withLocals
  rw [List.lookup_cons, hne]

theorem binding?_bind_self (d : Draft) (name : String) (b : Binding) :
    (d.bind name b).binding? name = some b :=
  List.lookup_cons_self

namespace Agrees

theorem bind {name : String} (hnames : ∀ x, x ≠ name → d'.binding? x = d.binding? x)
    (hresults : d'.results = d.results) (b : Binding) : (d.bind name b).Agrees (d'.bind name b) where
  bindings x := by
    by_cases hx : x = name
    · rw [hx, binding?_bind_self, binding?_bind_self]
    · rw [binding?_bind_ne d' hx, binding?_bind_ne d hx, hnames x hx]
  results := hresults

end Agrees

end Draft

namespace Invocation

/-- What reads the results of calls into temporaries from a number on, if they have one, and drops
the start signals. -/
def reads (type : Option HwType) (first : Nat) (calls : List Invocation) : List HwStmt :=
  (calls.zipIdx first).flatMap fun (c, k) ↦
    (type.toList.map fun _ ↦ .setVariable (tempName k) (.signal (c.pin .result))) ++
      [.drive (c.pin .started) (.bool false)]

end Invocation

def HwStmt.storedResults (type : Option HwType) (array : String) (element : HwType)
    (first count : Nat) : List HwStmt :=
  type.toList.flatMap fun t ↦ (List.range count).map fun i ↦
    .assign (.element array (.int (Int64.ofNat i) (.signed 32)))
      ((Lowered.ofVariable (tempName (first + i)) t).coerce element)

namespace Lowering

variable (l : Lowering)

/-- A value for a parameter: an expression is lowered where names and results stand for what they stand
for in `d`, and it is converted, perhaps in a temporary that is set to it in `d'`. -/
def Passes (callee : String) (d d' : Draft) (p : Parameter × Expr) (x : String × HwExpr) : Prop :=
  ∃ e e' v type, d.Agrees e ∧ l.expr p.2 e = .ok (v, e') ∧
    l.parameterType callee p.1 = .ok type ∧ x.1 = p.1.name ∧
      (x.2 = v.coerce type ∨ ∃ k, x.2 = .variable (tempName k) ∧
        HwStmt.setVariable (tempName k) (v.coerce type) ∈ d'.written)

/-- A copy of a call in a parallel invocation: it takes the slot of its number, and its arguments are
lowered where the index is bound to this number. -/
structure IsCopy (h : MemberHandle) (args : List Expr) (index : String) (i : Nat) (d d' : Draft)
    (c : Invocation) : Prop where
  target : c.target = l.program.tree.memberFullName h
  slot : c.slot = UInt32.ofNat i
  type : l.resultType h = .ok c.returnType
  arity : (l.program.tree.method h).parameters.length = args.length
  arguments : List.Forall₂ (l.Passes (l.program.tree.memberFullName h) (d.bind index (.index i)) d')
    ((l.program.tree.method h).parameters.zip args) c.arguments

/-- The parts of a parallel invocation that is lowered from one draft to another. -/
structure ParallelParts (count : Expr) (index : String) (call : Expr) (results : Option String)
    (d d' : Draft) where
  copies : UInt32
  callee : MemberHandle
  args : List Expr
  type : Option HwType
  batch : List Invocation
  /-- The number of the temporary for the first result. -/
  first : Nat
  /-- What stores the results. -/
  stored : List HwStmt
  copies_eq : count.copies = some copies
  callee_eq : l.callee call = .ok (callee, args)
  type_eq : l.resultType callee = .ok type
  length : batch.length = copies.toNat
  isCopy : ∀ (i : Nat) (hi : i < batch.length), l.IsCopy callee args index i d d' batch[i]
  /-- The calls run in one batch, and their results are stored when they are read. -/
  exchange : ∃ e : Draft, d.Writes (·.stores = []) e ∧ e.current < e.nextState ∧
    d'.code = e.code.redirect e.current (.waitFor (Invocation.idle batch) (.state e.nextState)) ++
      .exchange batch (Invocation.reads type first batch ++ stored) e.nextState
  discarded : results = none → stored = []
  kept : ∀ name ∈ results, ∃ array element length,
    d'.binding? name = some (.variable array (.array element length)) ∧
      stored = HwStmt.storedResults type array element first copies.toNat
  bindings : ∀ name, (d.binding? name).isSome ∨ name ∉ results →
    d'.binding? name = d.binding? name

variable {l} {d d' : Draft}

theorem Passes.mono {callee : String} {d'' : Draft} {p : Parameter × Expr} {x : String × HwExpr}
    (h : l.Passes callee d d' p x) (hsub : d'.written ⊆ d''.written) : l.Passes callee d d'' p x := by
  obtain ⟨e, e', v, type, he, hv, htype, hname, hx⟩ := h
  refine ⟨e, e', v, type, he, hv, htype, hname, hx.imp_right ?_⟩
  rintro ⟨k, hk, hmem⟩
  exact ⟨k, hk, hsub hmem⟩

theorem Passes.agrees {callee : String} {d₀ : Draft} {p : Parameter × Expr} {x : String × HwExpr}
    (h : l.Passes callee d d' p x) (hd : d₀.Agrees d) : l.Passes callee d₀ d' p x := by
  obtain ⟨e, e', v, type, he, hrest⟩ := h
  exact ⟨e, e', v, type, hd.trans he, hrest⟩

theorem IsCopy.mono {h : MemberHandle} {args : List Expr} {index : String} {i : Nat} {d'' : Draft}
    {c : Invocation} (hc : l.IsCopy h args index i d d' c) (hsub : d'.written ⊆ d''.written) :
    l.IsCopy h args index i d d'' c :=
  ⟨hc.target, hc.slot, hc.type, hc.arity, hc.arguments.imp fun _ _ hx ↦ hx.mono hsub⟩

theorem evalArguments_agrees {callee : String} {params : List (Parameter × Expr)}
    {arguments : List Argument} (h : l.evalArguments callee params d = .ok (arguments, d')) :
    List.Forall₂ (fun (p : Parameter × Expr) (a : Argument) ↦ ∃ e e', d.Agrees e ∧
      l.expr p.2 e = .ok (a.value, e') ∧ l.parameterType callee p.1 = .ok a.type ∧
        a.name = p.1.name) params arguments := by
  induction params generalizing arguments d with
  | nil =>
    obtain ⟨rfl, -⟩ := Prod.mk.inj (Except.ok.inj h)
    exact .nil
  | cons p rest ih =>
    obtain ⟨type, v, d₁, others, htype, hv, hothers, rfl⟩ := evalArguments_eq_ok h
    refine .cons ⟨d, d₁, ⟨fun _ ↦ rfl, rfl⟩, hv, htype, rfl⟩ ((ih hothers).imp ?_)
    rintro q a ⟨e, e', he, hrest⟩
    exact ⟨e, e', (Draft.Agrees.ofContext (sameContext_expr hv)).trans he, hrest⟩

theorem settleArguments_writes (callee : String) (arguments : List Argument) (d : Draft) :
    d.Writes (·.stores = []) (Draft.settleArguments callee arguments d).2 ∧
    (d.current < d.nextState →
      List.Forall₂ (fun (a : Argument) (x : String × HwExpr) ↦ x.1 = a.name ∧
        (x.2 = a.value.coerce a.type ∨ ∃ k, x.2 = .variable (tempName k) ∧
          .setVariable (tempName k) (a.value.coerce a.type) ∈
            (Draft.settleArguments callee arguments d).2.written))
        arguments (Draft.settleArguments callee arguments d).1) := by
  induction arguments generalizing d with
  | nil => exact ⟨.refl d, fun _ ↦ .nil⟩
  | cons a rest ih =>
    unfold Draft.settleArguments
    dsimp only
    split
    · let t := d.temporary a.type ("argument " ++ a.name ++ " of " ++ callee)
      let s : HwStmt := .setVariable t.1 (a.value.coerce a.type)
      have ht : d.Writes (·.stores = []) t.2 := .ofCode rfl rfl
      obtain ⟨hwrites, hvalues⟩ := ih (t.2.emit s a.value.cost)
      have hemit : d.Writes (·.stores = []) (t.2.emit s a.value.cost) :=
        ht.trans (.emit (P := (·.stores = [])) t.2 rfl _)
      refine ⟨hemit.trans hwrites, fun hi ↦ .cons ⟨rfl, .inr ⟨d.temporaries, rfl, ?_⟩⟩ (hvalues (hemit.current hi))⟩
      have hreserve := (ht.trans (.reserve t.2 a.value.cost)).current hi
      exact hwrites.subset (Draft.mem_written_push hreserve s)
    · obtain ⟨hwrites, hvalues⟩ := ih d
      exact ⟨hwrites, fun hi ↦ .cons ⟨rfl, .inl rfl⟩ (hvalues hi)⟩

theorem invocation_passes {h : MemberHandle} {group : NodeId} {args : List Expr} {c : Invocation}
    (hi : l.invocation h group args d = .ok (c, d')) (hcurrent : d.current < d.nextState) :
    c.target = l.program.tree.memberFullName h ∧ l.resultType h = .ok c.returnType ∧
    (l.program.tree.method h).parameters.length = args.length ∧
    List.Forall₂ (l.Passes (l.program.tree.memberFullName h) d d')
      ((l.program.tree.method h).parameters.zip args) c.arguments ∧
    d.Writes (·.stores = []) d' := by
  obtain ⟨slot, d₁, arguments, d₂, type, hslot, harguments, htype, rfl, rfl⟩ := invocation_eq_ok hi
  obtain ⟨-, -, rfl⟩ := takeSlot_eq hslot
  let d₁ : Draft := { d with slots := ((group, l.program.tree.memberFullName h), slot + 1) :: d.slots }
  obtain ⟨harity, harguments⟩ := arguments_eq_ok harguments
  have heval := evalArguments_agrees harguments
  have hwrites : d₁.Writes (·.stores = []) d₂ := evalArguments_choices .refl .trans .choice harguments
  obtain ⟨hsettle, hvalues⟩ :=
    settleArguments_writes (l.program.tree.memberFullName h) arguments d₂
  have hslots : d.Writes (·.stores = []) d₁ := .ofCode rfl rfl
  refine ⟨rfl, htype, harity, ?_, (hslots.trans hwrites).trans hsettle⟩
  refine forall₂_trans ?_ heval (hvalues (hwrites.current hcurrent))
  rintro p a x ⟨e, e', he, hv, htype, hname⟩ ⟨hname', hx⟩
  exact ⟨e, e', a.value, a.type, ⟨he.bindings, he.results⟩, hv, htype, hname'.trans hname, hx⟩

/-- The copies take one slot after another, and what is bound to other names than the index stays. -/
theorem copies_isCopy {h : MemberHandle} {group : NodeId} {args : List Expr} {index : String}
    {first count : Nat} {calls : List Invocation}
    (hc : l.copies h group args index first count d = .ok (calls, d'))
    (hcurrent : d.current < d.nextState)
    (hslot : d.nextSlot (group, l.program.tree.memberFullName h) = UInt32.ofNat first) :
    calls.length = count ∧
    (∀ (i : Nat) (hi : i < calls.length), l.IsCopy h args index (first + i) d d' calls[i]) ∧
    d.Writes (·.stores = []) d' := by
  induction count generalizing first d calls with
  | zero =>
    obtain ⟨rfl, rfl⟩ := Prod.mk.inj (Except.ok.inj hc)
    exact ⟨rfl, fun i hi ↦ absurd hi (Nat.not_lt_zero i), .refl d⟩
  | succ count ih =>
    obtain ⟨c, d₁, others, hcall, hothers, rfl⟩ := copies_eq_ok hc
    obtain ⟨htarget, htype, harity, hpass, hwrites⟩ := invocation_passes hcall hcurrent
    obtain ⟨hnumber, hcontext⟩ := sameContext_invocation hcall
    have hbind : d.Writes (·.stores = []) (d.bind index (.index first)) := .ofCode rfl rfl
    have hwrites := hbind.trans hwrites
    have hfirst : c.slot = UInt32.ofNat first := hnumber.trans hslot
    have hnext : d₁.nextSlot (group, l.program.tree.memberFullName h) = UInt32.ofNat (first + 1) := by
      rw [Draft.nextSlot, hcontext.slots, ← Draft.nextSlot, nextSlot_cons, if_pos rfl, hfirst]
      exact (UInt32.ofNat_add first 1).symm
    have hnames : ∀ x, x ≠ index → d₁.binding? x = d.binding? x := by
      intro x hx
      rw [Draft.binding?, hcontext.frame]
      exact d.binding?_bind_ne hx _
    obtain ⟨hlength, hcopies, hmore⟩ := ih hothers (hwrites.current hcurrent) hnext
    refine ⟨congrArg Nat.succ hlength, fun i hi ↦ ?_, hwrites.trans hmore⟩
    cases i with
    | zero => exact ⟨htarget, hfirst, htype, harity, hpass.imp fun _ _ hx ↦ hx.mono hmore.subset⟩
    | succ i =>
      obtain ⟨htarget, hslot, htype, harity, hpass⟩ := hcopies i (Nat.lt_of_succ_lt_succ hi)
      rw [Nat.add_right_comm] at hslot hpass
      exact ⟨htarget, hslot, htype, harity, hpass.imp fun _ _ hx ↦
        hx.agrees (.bind hnames hcontext.results _)⟩

end Lowering

namespace Draft

/-- Results of calls of one member are read into temporaries that follow one another. -/
theorem collect_reads {type : Option HwType} {calls : List Invocation}
    (htype : ∀ c ∈ calls, c.returnType = type) {first : Nat} {d : Draft}
    (hfirst : type.isSome → d.temporaries = first) :
    (collect calls d).1 = (List.range' first calls.length).map
      (fun k ↦ type.map (.ofVariable (tempName k))) ∧
    (collect calls d).2.code = d.code.extendAll d.current (Invocation.reads type first calls) ∧
    (collect calls d).2.current = d.current := by
  induction calls generalizing first d with
  | nil => exact ⟨rfl, (Code.extendAll_nil _ _).symm, rfl⟩
  | cons c rest ih =>
    obtain ⟨hc, hrest⟩ := List.forall_mem_cons.1 htype
    have hdrop (d : Draft) (body : List HwStmt) :
        (d.push (.drive (c.pin .started) (.bool false))).code.extendAll d.current body =
          d.code.extendAll d.current (.drive (c.pin .started) (.bool false) :: body) := by
      rw [code_push, Code.extendAll_extend]
    cases type with
    | none =>
      have hnone : (none : Option HwType).isSome →
          (d.push (.drive (c.pin .started) (.bool false))).temporaries = first + 1 := by
        intro h
        cases h
      obtain ⟨hvalues, hcode, hcurrent⟩ := ih hrest hnone
      simp only [collect, hc]
      refine ⟨?_, hcode.trans (hdrop d _), hcurrent⟩
      rw [hvalues]
      rfl
    | some type =>
      let t := d.temporary type ("result of " ++ c.target)
      let d₁ := t.2.push (.setVariable t.1 (.signal (c.pin .result)))
      obtain rfl := hfirst rfl
      have hnext : (some type).isSome →
          (d₁.push (.drive (c.pin .started) (.bool false))).temporaries = d.temporaries + 1 :=
        fun _ ↦ rfl
      obtain ⟨hvalues, hcode, hcurrent⟩ := ih hrest hnext
      simp only [collect, hc]
      refine ⟨?_, (hcode.trans (hdrop d₁ _)).trans ?_, hcurrent⟩
      · rw [hvalues]
        rfl
      · rw [code_push]
        exact Code.extendAll_extend _ _ _ _

end Draft

namespace Lowering

variable {l : Lowering} {d d' : Draft}

theorem code_storeResults (array : String) (element : HwType) (values : List (Option Lowered))
    (d : Draft) :
    (storeResults array element values d).code = d.code.extendAll d.current
      (values.zipIdx.flatMap fun (v, i) ↦ v.toList.map fun v ↦
        .assign (.element array (.int (Int64.ofNat i) (.signed 32))) (v.coerce element)) ∧
    (storeResults array element values d).frame = d.frame := by
  unfold storeResults
  induction values.zipIdx generalizing d with
  | nil => exact ⟨(Code.extendAll_nil _ _).symm, rfl⟩
  | cons x rest ih =>
    obtain ⟨v, i⟩ := x
    rw [List.foldl_cons, List.flatMap_cons]
    cases v with
    | none => exact ih d
    | some v =>
      obtain ⟨hcode, hframe⟩ := ih (d.push (.assign (.element array
        (.int (Int64.ofNat i) (.signed 32))) (v.coerce element)))
      refine ⟨hcode.trans ?_, hframe⟩
      rw [Draft.code_push]
      exact Code.extendAll_extend _ _ _ _

theorem stored_range (type : Option HwType) (array : String) (element : HwType)
    (first count : Nat) :
    (((List.range' first count).map fun k ↦
        type.map (Lowered.ofVariable (tempName k))).zipIdx.flatMap fun x ↦ x.1.toList.map fun v ↦
        HwStmt.assign (.element array (.int (Int64.ofNat x.2) (.signed 32))) (v.coerce element)) =
      HwStmt.storedResults type array element first count := by
  unfold HwStmt.storedResults
  rw [List.zipIdx_map, List.flatMap_map]
  cases type with
  | none => exact List.flatMap_eq_nil_iff.2 fun _ _ ↦ rfl
  | some t =>
    rw [Option.toList_some, List.flatMap_singleton]
    refine (List.map_eq_flatMap.symm.trans (List.ext_getElem ?_ ?_) :
      (((List.range' first count).zipIdx.flatMap fun x ↦
        [HwStmt.assign (.element array (.int (Int64.ofNat x.2) (.signed 32)))
          ((Lowered.ofVariable (tempName x.1) t).coerce element)])) = _)
    · simp
    · intro i _ _
      simp

theorem resultArray_binding {h : MemberHandle} {results : String} {count : UInt32} {name : String}
    {element : HwType} (hr : l.resultArray h results count d = .ok ((name, element), d')) :
    d'.code = d.code ∧ d'.current = d.current ∧
    (∃ length, d'.binding? results = some (.variable name (.array element length))) ∧
    ∀ x, (d.binding? x).isSome ∨ x ≠ results → d'.binding? x = d.binding? x := by
  obtain ⟨length, hb, rfl⟩ | ⟨hb, -, rfl, rfl⟩ := resultArray_eq_ok hr
  · exact ⟨rfl, rfl, ⟨length, hb⟩, fun _ _ ↦ rfl⟩
  · obtain ⟨hcode, hcurrent, hcontext⟩ := Draft.kept_declare d results (.array element
      ((l.program.arrays.get? (memberArrayKey d.frame.member results)).getD count))
      ("results of " ++ l.program.tree.memberFullName h)
    refine ⟨hcode, hcurrent, ⟨_, Draft.binding?_bind_self _ _ _⟩, fun x hx ↦ ?_⟩
    have hne : x ≠ results := by
      rintro rfl
      rw [hb] at hx
      simp at hx
    exact (Draft.binding?_bind_ne _ hne _).trans
      (congrArg (fun f : Frame ↦ f.locals.lookup x) hcontext.frame)

theorem parts_of_parallel {group : NodeId} {count : Expr} {index : String} {call : Expr}
    {results : Option String} (hp : l.parallel group count index call results d = .ok d')
    (hcurrent : d.current < d.nextState) (hfresh : ∀ callee, d.nextSlot (group, callee) = 0) :
    Nonempty (l.ParallelParts count index call results d d') := by
  obtain ⟨copies, h, args, batch, d₁, hcopies, hcallee, -, hbatch, hp⟩ := parallel_eq_ok hp
  obtain ⟨hlength, hcopy, hwrites⟩ := copies_isCopy hbatch hcurrent (hfresh _)
  simp only [Nat.zero_add] at hcopy
  let d₂ := d₁.withLocals d.frame.locals
  obtain ⟨label, hshake⟩ := d₂.handshake_eq batch
  let e := d₂.openState (label "await idle")
  have hreset : d₁.Writes (·.stores = []) d₂ := .ofCode rfl rfl
  have hfollow : d₁.Writes (·.stores = []) e := hreset.trans (.openState d₂ _)
  have he := hwrites.trans hfollow
  have hi : e.current < e.code.length := by
    rw [e.length_code]
    exact he.current hcurrent
  obtain ⟨type, htype, hall⟩ : ∃ type, l.resultType h = .ok type ∧
      ∀ c ∈ batch, c.returnType = type := by
    have hpos : 0 < batch.length := by
      rw [hlength]
      exact Nat.pos_of_ne_zero (ne_zero_of_copies hcopies)
    refine ⟨batch[0].returnType, (hcopy 0 hpos).type, fun c hc ↦ ?_⟩
    obtain ⟨i, hi, rfl⟩ := List.getElem_of_mem hc
    exact Except.ok.inj ((hcopy i hi).type.symm.trans (hcopy 0 hpos).type)
  have hcollect := Draft.collect_reads hall (fun _ ↦ rfl) (d := e.awaitCalls batch label)
  rw [← hshake] at hcollect
  obtain ⟨hvalues, hcode, hopen⟩ := hcollect
  have hexchange (stored : List HwStmt) : (d₂.handshake batch).2.code.extendAll
      (d₂.handshake batch).2.current stored =
      e.code.redirect e.current (.waitFor (Invocation.idle batch) (.state e.nextState)) ++
        .exchange batch (Invocation.reads type e.temporaries batch ++ stored) e.nextState := by
    rw [hcode, hopen, Code.extendAll_extendAll, Draft.code_awaitCalls hi, Draft.current_awaitCalls,
      Code.extendAll_exchange _ _ _ _ (Code.length_redirect _ _ _), e.length_code]
    rfl
  have hlocals : ∀ name, (d₂.handshake batch).2.binding? name = d.binding? name := by
    intro name
    rw [Draft.binding?, (d₂.sameContext_handshake batch).frame]
    rfl
  have hsub {d' : Draft} {stored : List HwStmt} (hcode' : d'.code =
      (d₂.handshake batch).2.code.extendAll (d₂.handshake batch).2.current stored) :
      d₁.written ⊆ d'.written := by
    refine List.Subset.trans hfollow.subset ?_
    rw [Draft.written, Draft.written, hcode', hexchange, Code.written_append, Code.written_redirect]
    exact List.subset_append_left _ _
  obtain ⟨rfl, rfl⟩ | ⟨name, array, element, d₄, rfl, harray, rfl⟩ := hp
  · exact ⟨⟨copies, h, args, type, batch, e.temporaries, [], hcopies, hcallee, htype, hlength, fun i hi ↦ (hcopy i hi).mono (hsub (Code.extendAll_nil _ _).symm),
      ⟨e, he, he.current hcurrent, (Code.extendAll_nil _ _).symm.trans (hexchange [])⟩, fun _ ↦ rfl,
      fun x hx ↦ absurd hx (Option.not_mem_none x), fun name _ ↦ hlocals name⟩⟩
  · obtain ⟨hcode₄, hcurrent₄, ⟨length, hname⟩, hkept⟩ := resultArray_binding harray
    obtain ⟨hstored, hframe₄⟩ := code_storeResults array element (d₂.handshake batch).1 d₄
    have hstored : (storeResults array element (d₂.handshake batch).1 d₄).code =
        (d₂.handshake batch).2.code.extendAll (d₂.handshake batch).2.current
          (HwStmt.storedResults type array element e.temporaries batch.length) := by
      rw [hstored, hcode₄, hcurrent₄, hvalues]
      exact congrArg _ (stored_range type array element e.temporaries batch.length)
    have hsame (x : String) : (storeResults array element (d₂.handshake batch).1 d₄).binding? x =
        d₄.binding? x := by
      rw [Draft.binding?, hframe₄, Draft.binding?]
    refine ⟨⟨copies, h, args, type, batch, e.temporaries,
      HwStmt.storedResults type array element e.temporaries batch.length, hcopies, hcallee, htype,
      hlength, fun i hi ↦ (hcopy i hi).mono (hsub hstored),
      ⟨e, he, he.current hcurrent, hstored.trans (hexchange _)⟩,
      fun hnone ↦ absurd hnone (Option.some_ne_none name), fun x hx ↦ ?_,
      fun x hx ↦ ?_⟩⟩
    · obtain rfl := Option.some.inj hx
      exact ⟨array, element, length, (hsame name).trans hname, by rw [hlength]⟩
    · have hx : ((d₂.handshake batch).2.binding? x).isSome ∨ x ≠ name := by
        rw [hlocals x]
        exact hx.imp_right fun h heq ↦ h (heq ▸ rfl)
      exact (hsame x).trans ((hkept x hx).trans (hlocals x))

end Lowering

end Fabric
