import Fabric.Proofs.Construction.Branch
import Fabric.Proofs.Construction.Handshake

namespace Fabric

/-- From one draft to another one that is open, with exits of loops but no returns. -/
structure Draft.Reaches (Γ : Interface) (P : Prop) (d d' : Draft) (Q : Prop) : Prop where
  opened : d'.isClosed = false
  evolves : ∃ B C, Evolves Γ (d.Scoped Γ ∧ P) B C [] d d' (d'.Scoped Γ ∧ Q)

namespace Draft.Reaches

variable {Γ : Interface} {P P' Q Q' S : Prop} {d d' d'' : Draft} {v : Lowered}

theorem seq (h : d.Reaches Γ P d' Q) (h' : d'.Reaches Γ P' d'' Q') (hmid : P → Q → P')
    (hpost : P → Q → Q' → S) : d.Reaches Γ P d'' S := by
  obtain ⟨B, C, he⟩ := h.evolves
  obtain ⟨B', C', he'⟩ := h'.evolves
  exact ⟨h'.opened, B ++ B', C ++ C', he.seq he' (fun hp hq ↦ ⟨hq.1, hmid hp.2 hq.2⟩)
    fun hp hq hq' ↦ ⟨hq'.1, hpost hp.2 hq.2 hq'.2⟩⟩

theorem conseq (h : d.Reaches Γ P d' Q) (hP : P' → P) (hQ : P' → Q → Q') : d.Reaches Γ P' d' Q' := by
  obtain ⟨B, C, he⟩ := h.evolves
  exact ⟨h.opened, B, C, he.conseq (fun hp ↦ ⟨hp.1, hP hp.2⟩) fun hp hq ↦ ⟨hq.1, hQ hp.2 hq.2⟩⟩

theorem addScope (h : d.Reaches Γ P d' Q) (hQ : d.Scoped Γ → Q') : d.Reaches Γ P d' (Q ∧ Q') := by
  obtain ⟨B, C, he⟩ := h.evolves
  exact ⟨h.opened, B, C, he.conseq id fun hp hq ↦ ⟨hq.1, hq.2, hQ hp.1⟩⟩

theorem slots (h : d.Reaches Γ P d' Q) (key : NodeId × String) : d.nextSlot key ≤ d'.nextSlot key := by
  obtain ⟨B, C, he⟩ := h.evolves
  exact he.slots key

theorem refl (ho : d.isClosed = false) (hQ : P → Q) : d.Reaches Γ P d Q :=
  ⟨ho, [], [], .refl d fun hp ↦ ⟨hp.1, hQ hp.2⟩⟩

theorem ofPlainly (ho : d'.isClosed = false)
    (h : Evolves.Plainly Γ (d.Scoped Γ ∧ P) d d' (d'.Scoped Γ ∧ Q)) : d.Reaches Γ P d' Q :=
  ⟨ho, [], [], h⟩

theorem ofEvaluates (h : d.Evaluates Γ v d') : d.Reaches Γ P d' (v.Typed Γ) :=
  .ofPlainly h.opened (h.evolves.conseq And.left fun _ hq ↦ hq)

theorem emit (ho : d.isClosed = false) {s : HwStmt} (hp : s.IsPlain) (cost : Binary64) :
    d.Reaches Γ (s.Typed Γ) (d.emit s cost) True :=
  .ofPlainly (d.isClosed_emit ho s cost) ((evolves_emit ho hp cost).conseq id fun _ h ↦ ⟨h, trivial⟩)

theorem temporary (ho : d.isClosed = false) (type : HwType) (comment : String) :
    d.Reaches Γ P (d.temporary type comment).2 (Γ.Declares (d.temporary type comment).1 type) :=
  .ofPlainly ho ((d.evolves_temporary type comment).conseq And.left fun _ h ↦ h)

theorem declare (ho : d.isClosed = false) (name : String) (type : HwType) (comment : String) :
    d.Reaches Γ P (d.declare name type comment).2
      (Γ.Declares (d.declare name type comment).1 type) := by
  refine .ofPlainly ?_ ((d.evolves_declare name type comment).conseq And.left fun _ h ↦ h)
  unfold Draft.declare
  dsimp only
  split
  · exact ho
  · exact ho

theorem bind (ho : d.isClosed = false) (name : String) (b : Binding) :
    d.Reaches Γ (b.Typed Γ) (d.bind name b) True :=
  .ofPlainly ho ((d.evolves_bind name b).conseq id fun _ h ↦ ⟨h, trivial⟩)

theorem setResult (ho : d.isClosed = false) (id : NodeId) (value : Option Lowered) :
    d.Reaches Γ (∀ v, value = some v → v.Typed Γ) (d.setResult id value) True :=
  .ofPlainly ho ((d.evolves_setResult id value).conseq (fun h ↦ h) fun _ h ↦ ⟨h, trivial⟩)

theorem reserve (ho : d.isClosed = false) (cost : Binary64) :
    d.Reaches Γ P (d.reserve cost) P :=
  .ofPlainly (d.isClosed_reserve ho cost)
    ((d.evolves_reserve ho cost).conseq And.left fun hp h ↦ ⟨h, hp.2⟩)

theorem ifThen {label : String} {t : Transition DraftTarget} (join : String) (ho : d.isClosed = false)
    (h : ((d.addState label).enter d.nextState).Reaches Γ P d' Q) (ht : P → t.Typed Γ)
    (hinto : t.Into {d.nextState, d'.nextState}) :
    d.Reaches Γ P (d'.join join d.current t [d'.current]) Q := by
  obtain ⟨B, C, he⟩ := h.evolves
  have hj := Evolves.ifThen join ho he (fun hp ↦ ht hp.2) hinto
  rw [exit?_of_open h.opened] at hj
  exact ⟨rfl, B, C, hj.conseq (fun hp ↦ ⟨(d.sameScope_fork label).scoped hp.1, hp.2⟩)
    fun _ hq ↦ ⟨(d'.sameScope_join _ _ _ _).scoped hq.1, hq.2⟩⟩

theorem ifElse {label label' : String} {t : Transition DraftTarget} (join : String)
    (ho : d.isClosed = false)
    (h : ((d.addState label).enter d.nextState).Reaches Γ P d' Q)
    (h' : ((d'.addState label').enter d'.nextState).Reaches Γ P d'' Q') (ht : P → t.Typed Γ)
    (hinto : t.Into {d.nextState, d'.nextState}) :
    d.Reaches Γ P (d''.join join d.current t [d'.current, d''.current]) Q' := by
  obtain ⟨B, C, he⟩ := h.evolves
  obtain ⟨B', C', he'⟩ := h'.evolves
  have hj := Evolves.ifElse join ho he he'
    (fun hp hq ↦ ⟨(d'.sameScope_fork label').scoped hq.1, hp.2⟩) (fun hp ↦ ht hp.2) hinto
  rw [exit?_of_open h.opened, exit?_of_open h'.opened] at hj
  exact ⟨rfl, B ++ B', C ++ C', hj.conseq
    (fun hp ↦ ⟨(d.sameScope_fork label).scoped hp.1, hp.2⟩)
    fun _ hq ↦ ⟨(d''.sameScope_join _ _ _ _).scoped hq.2.1, hq.2.2⟩⟩

end Draft.Reaches

namespace Draft

variable {Γ : Interface}

/-- One argument at a time: it is used as it is, or kept in a temporary. -/
theorem settleArguments_cons (callee : String) (a : Argument) (rest : List Argument) {d : Draft}
    (ho : d.isClosed = false) : ∃ value d₁,
    settleArguments callee (a :: rest) d =
      ((a.name, value) :: (settleArguments callee rest d₁).1, (settleArguments callee rest d₁).2) ∧
    d.Reaches Γ (a.value.Typed Γ) d₁ (value.HasType Γ a.type) := by
  by_cases hcost : a.value.cost > 0
  · let t := d.temporary a.type ("argument " ++ a.name ++ " of " ++ callee)
    refine ⟨.variable t.1, t.2.emit (.setVariable t.1 (a.value.coerce a.type)) a.value.cost, ?_, ?_⟩
    · simp only [settleArguments, if_pos hcost]
      rfl
    · have ht : d.Reaches Γ (a.value.Typed Γ) t.2 (Γ.Declares t.1 a.type) := .temporary ho _ _
      refine ht.seq (.emit ht.opened (HwStmt.isPlain_setVariable _ _) _) (fun hv hd ↦ ?_)
        fun _ hd _ ↦ .variable hd
      exact HwStmt.typed_setVariable hd (hv.coerce _)
  · refine ⟨a.value.coerce a.type, d, ?_, .refl ho fun hv ↦ hv.coerce _⟩
    simp only [settleArguments, if_neg hcost]

theorem reaches_settleArguments (callee : String) (arguments : List Argument) {d : Draft}
    (ho : d.isClosed = false) :
    d.Reaches Γ (∀ a ∈ arguments, a.value.Typed Γ) (settleArguments callee arguments d).2
      (∀ x ∈ (settleArguments callee arguments d).1,
        ∃ a ∈ arguments, x.1 = a.name ∧ x.2.HasType Γ a.type) := by
  induction arguments generalizing d with
  | nil => exact .refl ho fun _ ↦ nofun
  | cons a rest ih =>
    obtain ⟨value, d₁, heq, h₁⟩ := settleArguments_cons (Γ := Γ) callee a rest ho
    rw [heq]
    refine (h₁.conseq (fun hall ↦ hall a List.mem_cons_self) fun _ h ↦ h).seq (ih h₁.opened)
      (fun hall _ x hx ↦ hall x (List.mem_cons_of_mem _ hx)) fun _ hv hrest x hx ↦ ?_
    rcases List.mem_cons.1 hx with rfl | hx
    · exact ⟨a, List.mem_cons_self, rfl, hv⟩
    · obtain ⟨b, hb, hname⟩ := hrest x hx
      exact ⟨b, List.mem_cons_of_mem _ hb, hname⟩

theorem reaches_bindArguments (callee : String) (arguments : List Argument) {d : Draft}
    (ho : d.isClosed = false) :
    d.Reaches Γ (∀ a ∈ arguments, a.value.Typed Γ) (d.bindArguments callee arguments) True := by
  induction arguments generalizing d with
  | nil => exact .refl ho fun _ ↦ trivial
  | cons a rest ih =>
    let x := d.declare a.name a.type ("parameter " ++ a.name ++ " of " ++ callee)
    have hx : d.Reaches Γ (∀ b ∈ a :: rest, b.value.Typed Γ) x.2 (Γ.Declares x.1 a.type) :=
      .declare ho _ _ _
    have he : d.Reaches Γ (∀ b ∈ a :: rest, b.value.Typed Γ)
        (x.2.emit (.setVariable x.1 (a.value.coerce a.type)) a.value.cost)
        (Γ.Declares x.1 a.type) :=
      hx.seq (.emit hx.opened (HwStmt.isPlain_setVariable _ _) _)
        (fun hall hd ↦ HwStmt.typed_setVariable hd ((hall a List.mem_cons_self).coerce _))
        fun _ hd _ ↦ hd
    have hb := he.seq (.bind he.opened a.name (.variable x.1 a.type)) (fun _ hd ↦ hd)
      fun _ _ h ↦ h
    exact hb.seq (ih hb.opened) (fun hall _ b hb ↦ hall b (List.mem_cons_of_mem _ hb))
      fun _ _ h ↦ h

end Draft

namespace SyntaxTree

variable {t : SyntaxTree} {h : MemberHandle}

theorem declaringType_eq {d : TypeDecl} (hd : t.types[h.typePos]? = some d) :
    t.declaringType h = d := by
  rw [declaringType, List.getD_eq_getElem?_getD, hd, Option.getD_some]

theorem method_eq {m : MethodDecl} (hm : (t.declaringType h).methods[h.methodPos]? = some m) :
    t.method h = m := by
  rw [method, List.getD_eq_getElem?_getD, hm, Option.getD_some]

theorem mem_handles_iff :
    h ∈ t.handles ↔ ∃ d, t.types[h.typePos]? = some d ∧ h.methodPos < d.methods.length := by
  unfold handles
  constructor
  · intro hmem
    obtain ⟨⟨d, i⟩, hd, hj⟩ := List.mem_flatMap.1 hmem
    obtain ⟨j, hlt, rfl⟩ := List.mem_map.1 hj
    exact ⟨d, List.mem_zipIdx_iff_getElem?.1 hd, List.mem_range.1 hlt⟩
  · rintro ⟨d, hd, hlt⟩
    exact List.mem_flatMap.2 ⟨(d, h.typePos), List.mem_zipIdx_iff_getElem?.2 hd,
      List.mem_map.2 ⟨h.methodPos, List.mem_range.2 hlt, rfl⟩⟩

theorem lt_of_findMethod {d : TypeDecl} {name : String} {types : List TypeRef} {i : Nat}
    (hi : d.findMethod name types = some i) : i < d.methods.length := by
  have hpos {p : MethodDecl → Bool} (hp : findPos p d.methods = some i) : i < d.methods.length :=
    (List.findIdx?_eq_some_iff_findIdx_eq.1 hp).1
  unfold TypeDecl.findMethod at hi
  cases hfirst : findPos (fun m => m.name = name && m.parameterTypes = types) d.methods with
  | none =>
    rw [hfirst] at hi
    exact hpos hi
  | some k =>
    rw [hfirst] at hi
    exact hpos (hfirst.trans hi)

theorem mem_handles_of_resolveCall {target : MemberRef} (hr : t.resolveCall target = some h) :
    h ∈ t.handles := by
  unfold resolveCall at hr
  simp only [Option.bind_eq_bind, Option.bind_eq_some_iff] at hr
  obtain ⟨i, -, d, hd, j, hj, hh⟩ := hr
  obtain rfl := Option.some.inj hh
  obtain ⟨name, -, hname⟩ := List.exists_of_findSome?_eq_some hj
  exact mem_handles_iff.2 ⟨d, hd, lt_of_findMethod hname⟩

end SyntaxTree

namespace TypeRef

variable {arrays : ArrayTable} {key member : String} {t : TypeRef}

theorem hardware_member {type : HwType} (h : t.hardware arrays key member = .ok type)
    (member' : String) : t.hardware arrays key member' = .ok type := by
  cases t with
  | bool | int => exact h
  | void | named => exact nomatch h
  | array element =>
    cases element with
    | bool | int => exact h
    | void | named | array => exact nomatch h

theorem resultHardware_member {type : Option HwType}
    (h : t.resultHardware arrays key member = .ok type) (member' : String) :
    t.resultHardware arrays key member' = .ok type := by
  unfold resultHardware at h ⊢
  split at h
  · exact h
  next hvoid =>
    cases hh : t.hardware arrays key member with
    | error e => rw [hh] at h; exact nomatch h
    | ok x =>
      rw [hh] at h
      rw [hardware_member hh member']
      exact h

end TypeRef

namespace Lowering

variable {l : Lowering} {Γ : Interface} {d d' : Draft} {h : MemberHandle}

theorem evalArguments_eq_ok {callee : String} {p : Parameter × Expr} {rest : List (Parameter × Expr)}
    {arguments : List Argument} (ha : l.evalArguments callee (p :: rest) d = .ok (arguments, d')) :
    ∃ type v d₁ others, l.parameterType callee p.1 = .ok type ∧ l.expr p.2 d = .ok (v, d₁) ∧
      l.evalArguments callee rest d₁ = .ok (others, d') ∧
      arguments = ⟨p.1.name, type, v⟩ :: others := by
  unfold evalArguments at ha
  obtain ⟨type, htype, ha⟩ := Synthesis.bind_eq_ok.1 ha
  obtain ⟨⟨v, d₁⟩, hv, ha⟩ := Synthesis.bind_eq_ok.1 ha
  obtain ⟨⟨others, d₂⟩, hothers, ha⟩ := Synthesis.bind_eq_ok.1 ha
  obtain ⟨rfl, rfl⟩ := Prod.mk.inj (Except.ok.inj ha)
  exact ⟨type, v, d₁, others, htype, hv, hothers, rfl⟩

/-- A member is called with as many arguments as it has parameters. -/
theorem arguments_eq_ok {args : List Expr} {arguments : List Argument}
    (ha : l.arguments h args d = .ok (arguments, d')) :
    (l.program.tree.method h).parameters.length = args.length ∧
      l.evalArguments (l.program.tree.memberFullName h)
        ((l.program.tree.method h).parameters.zip args) d = .ok (arguments, d') := by
  unfold Lowering.arguments at ha
  dsimp only at ha
  split at ha
  · exact nomatch ha
  next hlength => exact ⟨not_not.1 hlength, ha⟩

theorem reaches_evalArguments {callee : String} {params : List (Parameter × Expr)}
    {arguments : List Argument} (ha : l.evalArguments callee params d = .ok (arguments, d'))
    (ho : d.isClosed = false) :
    d.Reaches Γ True d' (∀ a ∈ arguments, a.value.Typed Γ) ∧
      ∀ a ∈ arguments, ∃ p ∈ params, a.name = p.1.name ∧ l.parameterType callee p.1 = .ok a.type := by
  induction params generalizing d d' arguments with
  | nil =>
    obtain ⟨rfl, rfl⟩ := Prod.mk.inj (Except.ok.inj ha)
    exact ⟨.refl ho fun _ ↦ nofun, nofun⟩
  | cons p rest ih =>
    obtain ⟨type, v, d₁, others, htype, hv, hothers, rfl⟩ := evalArguments_eq_ok ha
    have hev : d.Evaluates Γ v d₁ := expr_evaluates hv ho
    obtain ⟨hrest, hnames⟩ := ih hothers hev.opened
    refine ⟨(Draft.Reaches.ofEvaluates hev).seq hrest (fun _ _ ↦ trivial)
      fun _ htyped hall a ha ↦ ?_, fun a ha ↦ ?_⟩
    · rcases List.mem_cons.1 ha with rfl | ha
      · exact htyped
      · exact hall a ha
    · rcases List.mem_cons.1 ha with rfl | ha
      · exact ⟨p, List.mem_cons_self, rfl, htype⟩
      · obtain ⟨q, hq, hname⟩ := hnames a ha
        exact ⟨q, List.mem_cons_of_mem _ hq, hname⟩

/-- The arguments of a call have the types of the parameters. -/
theorem reaches_arguments {args : List Expr} {arguments : List Argument}
    (ha : l.arguments h args d = .ok (arguments, d')) (ho : d.isClosed = false) :
    d.Reaches Γ True d' (∀ a ∈ arguments, a.value.Typed Γ) ∧
      ∀ a ∈ arguments, ∃ p ∈ (l.program.tree.method h).parameters, a.name = p.name ∧
        l.parameterType (l.program.tree.memberFullName h) p = .ok a.type := by
  obtain ⟨hr, hnames⟩ := reaches_evalArguments (Γ := Γ) (arguments_eq_ok ha).2 ho
  refine ⟨hr, fun a ha ↦ ?_⟩
  obtain ⟨⟨p, e⟩, hp, hname⟩ := hnames a ha
  exact ⟨p, (List.of_mem_zip hp).1, hname⟩

theorem takeSlot_eq {group : NodeId} {callee : String} {slot : UInt32}
    (hs : l.takeSlot group callee d = .ok (slot, d')) :
    slot = d.nextSlot (group, callee) ∧
      (∃ limit, l.member.invocations.get? callee = some limit ∧ slot < limit) ∧
      d' = { d with slots := ((group, callee), slot + 1) :: d.slots } := by
  unfold takeSlot at hs
  dsimp only at hs
  split at hs
  · exact nomatch hs
  next hlimit =>
    obtain ⟨rfl, rfl⟩ := Prod.mk.inj (Except.ok.inj hs)
    refine ⟨rfl, ?_, rfl⟩
    cases hg : l.member.invocations.get? callee with
    | none =>
      rw [hg] at hlimit
      exact absurd (UInt32.zero_le) hlimit
    | some limit =>
      rw [hg] at hlimit
      exact ⟨limit, rfl, UInt32.not_le.1 hlimit⟩

theorem nextSlot_cons (key key' : NodeId × String) (slot : UInt32) :
    Draft.nextSlot { d with slots := (key, slot) :: d.slots } key' =
      if key' = key then slot else d.nextSlot key' := by
  unfold Draft.nextSlot
  rw [List.lookup_cons]
  by_cases hk : key' = key
  · simp [hk]
  · simp [hk, beq_false_of_ne hk]

theorem lt_succ_of_lt {a b : UInt32} (hab : a < b) : a < a + 1 := by
  rw [UInt32.lt_iff_toNat_lt] at hab ⊢
  have hb := b.toNat_lt
  rw [UInt32.toNat_add]
  simp only [UInt32.reduceToNat]
  omega

theorem hasSlot_of_takeSlot (hΓ : Γ.Sees l) {callee : String} {slot limit : UInt32}
    (hlimit : l.member.invocations.get? callee = some limit) (hlt : slot < limit) :
    Γ.HasSlot callee slot := by
  refine ⟨⟨callee, limit⟩, ?_, rfl, hlt⟩
  rw [hΓ.invocations]
  exact List.mem_map.2 ⟨(callee, limit), mem_of_lookup hlimit, rfl⟩

theorem reaches_takeSlot {group : NodeId} {callee : String} {slot : UInt32}
    (hs : l.takeSlot group callee d = .ok (slot, d')) (ho : d.isClosed = false) :
    d.Reaches Γ True d' True := by
  obtain ⟨hslot, ⟨limit, -, hlt⟩, rfl⟩ := takeSlot_eq hs
  refine .ofPlainly ho (.ofScope (List.Subset.refl _) (fun key ↦ ?_) rfl rfl (fun _ _ _ ↦ rfl)
    fun _ hd ↦ ⟨⟨hd.1.frame, hd.1.results⟩, trivial⟩)
  rw [nextSlot_cons]
  split
  next hk => exact hk ▸ hslot ▸ UInt32.le_of_lt (lt_succ_of_lt hlt)
  next => exact UInt32.le_refl _

/-- What a call through a slot goes through. -/
theorem invocation_eq_ok {group : NodeId} {args : List Expr} {c : Invocation}
    (hi : l.invocation h group args d = .ok (c, d')) :
    let callee := l.program.tree.memberFullName h
    ∃ slot d₁ arguments d₂ type, l.takeSlot group callee d = .ok (slot, d₁) ∧
      l.arguments h args d₁ = .ok (arguments, d₂) ∧ l.resultType h = .ok type ∧
      c = ⟨callee, slot, (Draft.settleArguments callee arguments d₂).1, type⟩ ∧
      d' = (Draft.settleArguments callee arguments d₂).2 := by
  unfold invocation at hi
  obtain ⟨⟨slot, d₁⟩, hslot, hi⟩ := Synthesis.bind_eq_ok.1 hi
  obtain ⟨⟨arguments, d₂⟩, harguments, hi⟩ := Synthesis.bind_eq_ok.1 hi
  obtain ⟨-, -, hi⟩ := Synthesis.bind_eq_ok.1 hi
  obtain ⟨type, htype, hi⟩ := Synthesis.bind_eq_ok.1 hi
  obtain ⟨rfl, rfl⟩ := Prod.mk.inj (Except.ok.inj hi)
  exact ⟨slot, d₁, arguments, d₂, type, hslot, harguments, htype, rfl, rfl⟩

/-- A call through a slot is sound, and its slot is the next one of its statement. -/
theorem reaches_invocation (hΓ : Γ.Sees l) (hh : h ∈ l.program.tree.handles) {group : NodeId}
    {args : List Expr} {c : Invocation} (hi : l.invocation h group args d = .ok (c, d'))
    (ho : d.isClosed = false) :
    d.Reaches Γ True d' (c.Sound Γ) ∧ d.nextSlot (group, c.target) = c.slot ∧
      c.slot < d'.nextSlot (group, c.target) := by
  obtain ⟨slot, d₁, arguments, d₂, type, hslot, harguments, htype, rfl, rfl⟩ := invocation_eq_ok hi
  have h₁ : d.Reaches Γ True d₁ True := reaches_takeSlot hslot ho
  obtain ⟨h₂, hnames⟩ := reaches_arguments (Γ := Γ) harguments h₁.opened
  have h₃ := Draft.reaches_settleArguments (Γ := Γ) (l.program.tree.memberFullName h) arguments
    h₂.opened
  obtain ⟨heq, ⟨limit, hlimit, hlt⟩, rfl⟩ := takeSlot_eq hslot
  refine ⟨(h₁.seq h₂ (fun _ _ ↦ trivial) fun _ _ h ↦ h).seq h₃ (fun _ h ↦ h)
    fun _ _ hvalues ↦ ⟨hasSlot_of_takeSlot hΓ hlimit hlt, fun x hx ↦ ?_, h, ?_⟩, heq.symm, ?_⟩
  · obtain ⟨a, ha, hname, hx⟩ := hvalues x hx
    obtain ⟨p, hp, hpname, hptype⟩ := hnames a ha
    refine ⟨a.type, ?_, hx⟩
    rw [hname, hpname, hΓ.program]
    exact .parameter hh rfl hp (TypeRef.hardware_member hptype _)
  · rw [hΓ.program]
    exact ⟨hh, rfl, TypeRef.resultHardware_member htype _⟩
  · have hmono := h₂.slots (group, l.program.tree.memberFullName h)
    have hmono' := h₃.slots (group, l.program.tree.memberFullName h)
    rw [nextSlot_cons, if_pos rfl] at hmono
    exact UInt32.lt_of_lt_of_le (lt_succ_of_lt hlt) (UInt32.le_trans hmono hmono')

end Lowering

end Fabric
