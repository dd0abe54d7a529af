import Fabric.Proofs.Construction.Call

namespace Fabric

namespace Draft

variable {Γ : Interface} {d : Draft}

theorem evolves_withLocals (locals : List (String × Binding)) :
    Evolves.Plainly Γ (d.Scoped Γ ∧ ∀ x ∈ locals, x.2.Typed Γ) d (d.withLocals locals)
      ((d.withLocals locals).Scoped Γ) :=
  .ofScope (List.Subset.refl _) (fun _ ↦ UInt32.le_refl _) rfl rfl (fun _ _ _ ↦ rfl)
    fun _ h ↦ ⟨⟨h.2, h.1.frame.result⟩, h.1.results⟩

end Draft

namespace Lowering

variable {l : Lowering} {Γ : Interface} {d d' : Draft} {h : MemberHandle}

theorem copies_eq_ok {group : NodeId} {args : List Expr} {index : String} {first count : Nat}
    {calls : List Invocation}
    (hc : l.copies h group args index first (count + 1) d = .ok (calls, d')) :
    ∃ c d₁ others, l.invocation h group args
        (d.bind index (.constant (.int (Int64.ofNat first) (.signed 32)) (.signed 32))) =
          .ok (c, d₁) ∧
      l.copies h group args index (first + 1) count d₁ = .ok (others, d') ∧ calls = c :: others := by
  unfold copies at hc
  obtain ⟨⟨c, d₁⟩, hcall, hc⟩ := Synthesis.bind_eq_ok.1 hc
  obtain ⟨⟨others, d₂⟩, hothers, hc⟩ := Synthesis.bind_eq_ok.1 hc
  obtain ⟨rfl, rfl⟩ := Prod.mk.inj (Except.ok.inj hc)
  exact ⟨c, d₁, others, hcall, hothers, rfl⟩

/-- The results go to an array of their name, or else to a new one. -/
theorem resultArray_eq_ok {results : String} {count : UInt32} {name : String} {element : HwType}
    (hr : l.resultArray h results count d = .ok ((name, element), d')) :
    (∃ length, d.binding? results = some (.variable name (.array element length)) ∧ d' = d) ∨
      (d.binding? results = none ∧ l.resultType h = .ok (some element) ∧
        let x := d.declare results
          (.array element ((l.program.arrays.get? (memberArrayKey d.frame.member results)).getD count))
          ("results of " ++ l.program.tree.memberFullName h)
        name = x.1 ∧ d' = x.2.bind results (.variable x.1 (.array element
          ((l.program.arrays.get? (memberArrayKey d.frame.member results)).getD count)))) := by
  unfold resultArray at hr
  split at hr
  next x type length hb =>
    obtain ⟨hx, rfl⟩ := Prod.mk.inj (Except.ok.inj hr)
    obtain ⟨rfl, rfl⟩ := Prod.mk.inj hx
    exact .inl ⟨length, hb, rfl⟩
  next => exact nomatch hr
  next hb =>
    obtain ⟨type?, htype, hr⟩ := Synthesis.bind_eq_ok.1 hr
    obtain ⟨type, hsome, hr⟩ := Synthesis.bind_eq_ok.1 hr
    obtain ⟨hx, rfl⟩ := Prod.mk.inj (Except.ok.inj hr)
    obtain ⟨rfl, rfl⟩ := Prod.mk.inj hx
    exact .inr ⟨hb, require_eq_ok.1 hsome ▸ htype, rfl, rfl⟩

theorem parallel_eq_ok {group : NodeId} {count : Expr} {index : String} {call : Expr}
    {results : Option String} (hp : l.parallel group count index call results d = .ok d') :
    ∃ copies h args batch d₁, count.copies = some copies ∧ l.callee call = .ok (h, args) ∧
      l.plan.isInlined h = false ∧ l.copies h group args index 0 copies.toNat d = .ok (batch, d₁) ∧
      let x := (d₁.withLocals d.frame.locals).handshake batch
      ((results = none ∧ d' = x.2) ∨ ∃ name array element d₂, results = some name ∧
        l.resultArray h name copies x.2 = .ok ((array, element), d₂) ∧
        d' = storeResults array element x.1 d₂) := by
  unfold parallel at hp
  obtain ⟨copies, hcopies, hp⟩ := Synthesis.bind_eq_ok.1 hp
  obtain ⟨⟨h, args⟩, hcallee, hp⟩ := Synthesis.bind_eq_ok.1 hp
  dsimp only at hp
  split at hp
  · exact nomatch hp
  next hinlined =>
    obtain ⟨⟨batch, d₁⟩, hbatch, hp⟩ := Synthesis.bind_eq_ok.1 hp
    refine ⟨copies, h, args, batch, d₁, require_eq_ok.1 hcopies, hcallee,
      eq_false_of_ne_true hinlined, hbatch, ?_⟩
    cases results with
    | none => exact .inl ⟨rfl, (Except.ok.inj hp).symm⟩
    | some name =>
      obtain ⟨⟨⟨array, element⟩, d₂⟩, harray, hp⟩ := Synthesis.bind_eq_ok.1 hp
      exact .inr ⟨name, array, element, d₂, rfl, harray, (Except.ok.inj hp).symm⟩

theorem reaches_copies (hΓ : Γ.Sees l) (hh : h ∈ l.program.tree.handles) {group : NodeId}
    {args : List Expr} {index : String} {first count : Nat} {calls : List Invocation}
    (hc : l.copies h group args index first count d = .ok (calls, d')) (ho : d.isClosed = false) :
    d.Reaches Γ True d' (∀ c ∈ calls, c.Sound Γ) ∧ calls.length = count ∧
      (calls.map Invocation.place).Nodup ∧
      ∀ c ∈ calls, d.nextSlot (group, c.target) ≤ c.slot := by
  induction count generalizing first d d' calls with
  | zero =>
    obtain ⟨rfl, rfl⟩ := Prod.mk.inj (Except.ok.inj hc)
    exact ⟨.refl ho fun _ ↦ nofun, rfl, List.nodup_nil, nofun⟩
  | succ count ih =>
    obtain ⟨c, d₁, others, hcall, hothers, rfl⟩ := copies_eq_ok hc
    have hbind := Draft.Reaches.bind (Γ := Γ) ho index
      (.constant (.int (Int64.ofNat first) (.signed 32)) (.signed 32))
    obtain ⟨h₁, hslot, hnext⟩ := reaches_invocation hΓ hh hcall hbind.opened
    obtain ⟨h₂, hlength, hnodup, hbound⟩ := ih hothers h₁.opened
    have hcall : d.Reaches Γ True d₁ (c.Sound Γ) :=
      (hbind.conseq (fun _ ↦ .int _ _) fun _ h ↦ h).seq h₁ (fun _ h ↦ h) fun _ _ h ↦ h
    refine ⟨hcall.seq h₂ (fun _ _ ↦ trivial) fun _ hs hall ↦ List.forall_mem_cons.2 ⟨hs, hall⟩,
      congrArg Nat.succ hlength, List.nodup_cons.2 ⟨fun hmem ↦ ?_, hnodup⟩, ?_⟩
    · obtain ⟨x, hx, hplace⟩ := List.mem_map.1 hmem
      obtain ⟨htarget, hsame⟩ := Prod.mk.inj hplace
      have hle := hbound x hx
      rw [htarget, hsame] at hle
      exact UInt32.not_le.2 hnext hle
    · refine List.forall_mem_cons.2 ⟨hslot ▸ UInt32.le_refl _, fun x hx ↦ ?_⟩
      exact UInt32.le_trans (hcall.slots _) (hbound x hx)

theorem reaches_resultArray {results : String} {count : UInt32} {name : String} {element : HwType}
    (hr : l.resultArray h results count d = .ok ((name, element), d')) (ho : d.isClosed = false) :
    d.Reaches Γ True d' (∃ length, Γ.Declares name (.array element length)) := by
  obtain ⟨length, hb, rfl⟩ | ⟨-, -, rfl, rfl⟩ := resultArray_eq_ok hr
  · refine ((Draft.Reaches.refl (P := True) ho id).addScope fun hs ↦ ?_).conseq id fun _ h ↦ h.2
    exact ⟨length, hs.frame.locals _ (mem_of_lookup hb)⟩
  · have hd := Draft.Reaches.declare (Γ := Γ) (P := True) ho results
      (.array element ((l.program.arrays.get? (memberArrayKey d.frame.member results)).getD count))
      ("results of " ++ l.program.tree.memberFullName h)
    have hall := hd.seq (.bind hd.opened results (.variable _ _)) (fun _ hd ↦ hd)
      fun _ hd _ ↦ hd
    exact hall.conseq id fun _ hd ↦ ⟨_, hd⟩

/-- What holds of a draft and is kept by every store holds when the results are stored. -/
theorem storeResults_induction {motive : Draft → Prop} {array : String} {element : HwType}
    {values : List (Option Lowered)} (hd : motive d)
    (hstore : ∀ d i v, some v ∈ values → motive d →
      motive (d.push (.assign (.element array (.int (Int64.ofNat i) (.signed 32)))
        (v.coerce element)))) :
    motive (storeResults array element values d) := by
  unfold storeResults
  refine List.foldlRecOn _ _ hd fun d hd x hx ↦ ?_
  obtain ⟨value, i⟩ := x
  cases value with
  | none => exact hd
  | some v => exact hstore d i v (List.fst_mem_of_mem_zipIdx hx) hd

theorem reaches_storeResults {array : String} {element : HwType}
    (values : List (Option Lowered)) (ho : d.isClosed = false) :
    d.Reaches Γ
      ((∃ length, Γ.Declares array (.array element length)) ∧ ∀ v, some v ∈ values → v.Typed Γ)
      (storeResults array element values d) True := by
  refine storeResults_induction (motive := fun d' ↦ d.Reaches Γ _ d' True)
    (.refl ho fun _ ↦ trivial) fun d' i v hv hd ↦ ?_
  have hplain : (HwStmt.assign (.element array (.int (Int64.ofNat i) (.signed 32)))
      (v.coerce element)).IsPlain := fun _ _ ↦ rfl
  have hpush : d'.Reaches Γ (HwStmt.Typed Γ (.assign (.element array
      (.int (Int64.ofNat i) (.signed 32))) (v.coerce element))) (d'.push _) True :=
    .ofPlainly hd.opened ((Draft.evolves_push hd.opened hplain).conseq id fun _ h ↦ ⟨h, trivial⟩)
  refine hd.seq hpush (fun h _ ↦ ?_) fun _ _ h ↦ h
  obtain ⟨length, harray⟩ := h.1
  exact ⟨element, .element harray (.int _ _) rfl, (h.2 v hv).coerce element⟩

theorem ne_zero_of_copies {e : Expr} {count : UInt32} (h : e.copies = some count) :
    count.toNat ≠ 0 := by
  unfold Expr.copies at h
  have hne := (Option.filter_eq_some_iff.1 h).2
  intro hzero
  have : count = 0 := UInt32.toNat_inj.1 hzero
  simp [this] at hne

theorem reaches_parallel (hΓ : Γ.Sees l) {group : NodeId} {count : Expr} {index : String}
    {call : Expr} {results : Option String}
    (hp : l.parallel group count index call results d = .ok d') (ho : d.isClosed = false) :
    d.Reaches Γ True d' True := by
  obtain ⟨number, h, args, batch, d₁, hnumber, hcallee, -, hbatch, hresults⟩ := parallel_eq_ok hp
  obtain ⟨h₁, hlength, hnodup, -⟩ :=
    reaches_copies hΓ (mem_handles_of_callee hcallee) hbatch ho
  have hne : batch ≠ [] := by
    rintro rfl
    exact ne_zero_of_copies hnumber hlength.symm
  let d₂ := d₁.withLocals d.frame.locals
  have h₂ : d.Reaches Γ True d₂ (∀ c ∈ batch, c.Sound Γ) :=
    (h₁.addScope fun hs ↦ hs.frame.locals).seq
      (.ofPlainly (P := ∀ x ∈ d.frame.locals, x.2.Typed Γ) (Q := True) h₁.opened
        ((d₁.evolves_withLocals d.frame.locals).conseq id fun _ h ↦ ⟨h, trivial⟩))
      (fun _ h ↦ h.2) fun _ h _ ↦ h.1
  have h₃ : d.Reaches Γ True (d₂.handshake batch).2
      (∀ v, some v ∈ (d₂.handshake batch).1 → v.Typed Γ) :=
    h₂.seq (.ofPlainly (d₂.isClosed_handshake batch) (Draft.evolves_handshake h₂.opened hne))
      (fun _ hs ↦ ⟨hs, fun _ ↦ hnodup⟩) fun _ _ h ↦ h
  obtain ⟨-, rfl⟩ | ⟨name, array, element, d₃, -, harray, rfl⟩ := hresults
  · exact h₃.conseq id fun _ _ ↦ trivial
  · have h₄ := reaches_resultArray (Γ := Γ) harray h₃.opened
    have h₅ := h₃.seq h₄ (fun _ _ ↦ trivial) fun _ hv ha ↦ And.intro ha hv
    exact h₅.seq (reaches_storeResults _ h₅.opened) (fun _ h ↦ h) fun _ _ h ↦ h

end Lowering

end Fabric
