import Fabric.Proofs.Construction.Expr

namespace Fabric

theorem modify_append_left {α : Type} {a : List α} {i : Nat} (h : i < a.length) (b : List α)
    (f : α → α) : (a ++ b).modify i f = a.modify i f ++ b := by
  induction a generalizing i with
  | nil => exact absurd h (Nat.not_lt_zero i)
  | cons x a ih =>
    cases i with
    | zero => rfl
    | succ i =>
      rw [List.cons_append, List.modify_succ_cons, ih (Nat.lt_of_succ_lt_succ h),
        List.modify_succ_cons, List.cons_append]

theorem modify_append_right {α : Type} (a b : List α) (i : Nat) (f : α → α) :
    (a ++ b).modify (a.length + i) f = a ++ b.modify i f := by
  induction a with
  | nil => simp
  | cons x a ih =>
    rw [List.cons_append, List.length_cons, Nat.add_right_comm, List.modify_succ_cons, ih,
      List.cons_append]

def Code.extendAll (code : Code) (i : Nat) (body : List HwStmt) : Code :=
  code.modify i fun b ↦ { b with body := b.body ++ body }

namespace Code

theorem extendAll_nil (code : Code) (i : Nat) : code.extendAll i [] = code := by
  have h : (fun b : Block ↦ { b with body := b.body ++ [] }) = id := by
    funext b
    simp
  rw [extendAll, h, List.modify_id]

theorem extendAll_extend (code : Code) (i : Nat) (s : HwStmt) (body : List HwStmt) :
    (code.extend i s).extendAll i body = code.extendAll i (s :: body) := by
  unfold extendAll extend
  rw [List.modify_modify_eq]
  congr 1
  funext b
  simp

/-- The states of a batch of calls, as they are added one by one. -/
theorem exchange_eq {code : Code} {i : Nat} (hi : i < code.length) (calls : List Invocation)
    (t : Transition DraftTarget) :
    redirect (redirect (List.modify (redirect (code ++ [Block.fresh code.length]) i t) code.length
          (fun b ↦ { b with body := calls.flatMap Invocation.startBody })
        ++ [Block.fresh (code.length + 1)]) code.length (.goto (.state (code.length + 1)))
      ++ [Block.fresh (code.length + 2)]) (code.length + 1)
        (.waitFor (.all (calls.map Invocation.finished)) (.state (code.length + 2))) =
      code.redirect i t ++ exchange calls [] code.length := by
  have hlen : (code.redirect i t).length = code.length := length_redirect _ _ _
  have hat (k : Nat) (more : Code) (f : Block → Block) :
      List.modify (code.redirect i t ++ more) (code.length + k) f =
        code.redirect i t ++ more.modify k f := by
    rw [← hlen]
    exact modify_append_right _ _ _ _
  have h₀ : redirect (code ++ [Block.fresh code.length]) i t =
      code.redirect i t ++ [Block.fresh code.length] := modify_append_left hi _ _
  rw [h₀]
  have h₁ := hat 0 [.fresh code.length]
    fun b ↦ { b with body := calls.flatMap Invocation.startBody }
  rw [Nat.add_zero] at h₁
  have h₂ := hat 0
    [⟨.state code.length, calls.flatMap Invocation.startBody, .goto .finished⟩,
      .fresh (code.length + 1)] fun b ↦ { b with transition := .goto (.state (code.length + 1)) }
  have h₃ (u : Transition DraftTarget) := hat 1
    [⟨.state code.length, calls.flatMap Invocation.startBody, .goto (.state (code.length + 1))⟩,
      .fresh (code.length + 1), .fresh (code.length + 2)] fun b ↦ { b with transition := u }
  rw [h₁, List.append_assoc]
  refine (congrArg (fun c : Code ↦ redirect (c ++ [Block.fresh (code.length + 2)]) _ _) h₂).trans ?_
  rw [List.append_assoc]
  exact h₃ _

theorem extendAll_exchange (code : Code) (calls : List Invocation) (body : List HwStmt) (n : Nat)
    (hn : code.length = n) :
    extendAll (code ++ exchange calls [] n) (n + 2) body = code ++ exchange calls body n := by
  subst hn
  exact modify_append_right _ _ _ _

end Code

namespace Draft

variable {Γ : Interface} {d : Draft}

structure Collected (Γ : Interface) (calls : List Invocation) (d : Draft)
    (values : List (Option Lowered)) (d' : Draft) (body : List HwStmt) : Prop where
  code : d'.code = d.code.extendAll d.current body
  current : d'.current = d.current
  isClosed : d'.isClosed = d.isClosed
  slots : d'.slots = d.slots
  loops : d'.loops = d.loops
  frame : d'.frame = d.frame
  results : d'.results = d.results
  declared : d.declarations ⊆ d'.declarations
  collects : Γ.Covers d' → Collects Γ calls body
  typed : Γ.Covers d' → ∀ v, some v ∈ values → v.Typed Γ

theorem collected_collect (calls : List Invocation) (d : Draft) :
    ∃ body, Collected Γ calls d (collect calls d).1 (collect calls d).2 body := by
  induction calls generalizing d with
  | nil =>
    exact ⟨[], (Code.extendAll_nil _ _).symm, rfl, rfl, rfl, rfl, rfl, rfl, List.Subset.refl _,
      fun _ ↦ .nil, nofun⟩
  | cons c rest ih =>
    cases hr : c.returnType with
    | none =>
      obtain ⟨body, h⟩ := ih (d.push (.drive (c.pin .started) (.bool false)))
      refine ⟨.drive (c.pin .started) (.bool false) :: body, ?_⟩
      simp only [collect, hr]
      refine ⟨?_, h.current, h.isClosed, h.slots, h.loops, h.frame, h.results, h.declared,
        fun hc ↦ .void hr (h.collects hc), fun hc v hv ↦ ?_⟩
      · rw [h.code, code_push]
        exact Code.extendAll_extend _ _ _ _
      · exact h.typed hc v (by simpa using hv)
    | some type =>
      let t := d.temporary type ("result of " ++ c.target)
      obtain ⟨body, h⟩ := ih ((t.2.push (.setVariable t.1 (.signal (c.pin .result)))).push
        (.drive (c.pin .started) (.bool false)))
      have hdeclares (e : Declaration) (he : e ∈ t.2.declarations) := h.declared he
      refine ⟨.setVariable t.1 (.signal (c.pin .result))
        :: .drive (c.pin .started) (.bool false) :: body, ?_⟩
      simp only [collect, hr]
      have hvar (hc : Γ.Covers _) : Γ.Declares t.1 type :=
        ⟨⟨t.1, type, _⟩, hc (hdeclares _ (List.mem_append_right _ (List.mem_singleton_self _))),
          rfl, rfl⟩
      refine ⟨?_, h.current, h.isClosed, h.slots, h.loops, h.frame, h.results,
        fun e he ↦ hdeclares e (List.mem_append_left _ he),
        fun hc ↦ .value hr (hvar hc) (h.collects hc), fun hc v hv ↦ ?_⟩
      · rw [h.code, code_push, code_push]
        exact (Code.extendAll_extend _ _ _ _).trans (Code.extendAll_extend _ _ _ _)
      · rcases List.mem_cons.1 hv with heq | hv
        · exact Option.some.inj heq ▸ .variable (hvar hc)
        · exact h.typed hc v hv

def awaitCalls (d : Draft) (calls : List Invocation) (label : String → String) : Draft :=
  let start := d.nextState
  let d := (d.addState (label "start")).setTransition d.current
    (.waitFor (Invocation.idle calls) (.state start))
  let d := d.modifyState start fun s ↦ { s with body := calls.flatMap Invocation.startBody }
  let wait := d.nextState
  let d := (d.addState (label "await")).link start wait
  let done := d.nextState
  let d := (d.addState (label "collect")).setTransition wait
    (.waitFor (.all (calls.map Invocation.finished)) (.state done))
  d.enter done

theorem handshake_eq (d : Draft) (calls : List Invocation) : ∃ label : String → String,
    d.handshake calls = collect calls ((d.openState (label "await idle")).awaitCalls calls label) :=
  ⟨fun what ↦ what ++ " " ++ ", ".intercalate (calls.map Invocation.target), rfl⟩

theorem length_collect (calls : List Invocation) (d : Draft) :
    (collect calls d).1.length = calls.length := by
  induction calls generalizing d with
  | nil => rfl
  | cons c rest ih =>
    unfold collect
    exact congrArg Nat.succ (ih _)

theorem length_handshake (d : Draft) (calls : List Invocation) :
    (d.handshake calls).1.length = calls.length := by
  obtain ⟨label, heq⟩ := d.handshake_eq calls
  rw [heq, length_collect]

theorem code_awaitCalls (hi : d.current < d.code.length) (calls : List Invocation)
    (label : String → String) : (d.awaitCalls calls label).code =
      d.code.redirect d.current (.waitFor (Invocation.idle calls) (.state d.code.length)) ++
        .exchange calls [] d.code.length := by
  have hbody (d : Draft) (i : Nat) (body : List HwStmt) :
      (d.modifyState i fun s ↦ { s with body := body }).code =
        d.code.modify i fun b ↦ { b with body := body } := d.code_modifyState i _ _ fun _ ↦ rfl
  rw [← Code.exchange_eq hi]
  unfold awaitCalls
  dsimp only
  rw [code_enter, code_setTransition, code_addState, code_link, code_addState, hbody,
    code_setTransition, code_addState]
  simp

theorem current_awaitCalls (calls : List Invocation) (label : String → String) :
    (d.awaitCalls calls label).current = d.code.length + 2 := by
  simp [awaitCalls, enter]

/-- A state that is opened with a label is empty. -/
theorem body_openState {L R : Multiset Nat} {E : Set Nat} (hg : (d.site L R E).Good)
    (ho : d.isClosed = false) (label : String) :
    ∃ b, (d.openState label).code[(d.openState label).current]? = some b ∧ b.body = [] := by
  rcases d.site_openState label with ⟨b, hb, hbody, h⟩ | h
  · have hcode : (d.openState label).code = d.code := congrArg Site.code (h 0 0 ∅)
    have hcurrent : (d.openState label).current = d.current := congrArg Site.current (h 0 0 ∅)
    exact ⟨b, by rw [hcode, hcurrent, hb], hbody⟩
  · have hcode : (d.openState label).code = (d.advance label).code :=
      congrArg Site.code (h 0 0 ∅)
    have hcurrent : (d.openState label).current = (d.advance label).current :=
      congrArg Site.current (h 0 0 ∅)
    have hlt : d.current < d.code.length := hg.current_lt
    refine ⟨.fresh d.code.length, ?_, rfl⟩
    rw [hcode, hcurrent, current_advance, code_advance label ho,
      Code.getElem?_redirect_ne _ _ (by simpa using hlt.ne), ← d.length_code]
    simp

theorem isClosed_collect (calls : List Invocation) (d : Draft) :
    (collect calls d).2.isClosed = d.isClosed := by
  induction calls generalizing d with
  | nil => rfl
  | cons c rest ih =>
    cases hr : c.returnType with
    | none =>
      simp only [collect, hr]
      exact ih _
    | some type =>
      simp only [collect, hr]
      exact ih _

theorem isClosed_handshake (d : Draft) (calls : List Invocation) :
    (d.handshake calls).2.isClosed = false := by
  obtain ⟨label, heq⟩ := d.handshake_eq calls
  rw [heq, isClosed_collect]
  rfl

/-- The site after a batch of calls that starts from an empty state. -/
theorem exists_site_collect (hlt : d.current < d.code.length)
    (calls : List Invocation) (label : String → String) :
    ∃ body, (Γ.Covers (collect calls (d.awaitCalls calls label)).2 → Collects Γ calls body) ∧
      ∀ L R E, (collect calls (d.awaitCalls calls label)).2.site L R E =
        ⟨d.code.redirect d.current (.waitFor (Invocation.idle calls) (.state d.code.length)) ++
          .exchange calls body d.code.length, d.code.length + 2, false, L, R, E⟩ := by
  obtain ⟨body, h⟩ := collected_collect (Γ := Γ) calls (d.awaitCalls calls label)
  refine ⟨body, h.collects, fun L R E ↦ ?_⟩
  have hclosed : (d.awaitCalls calls label).isClosed = false := rfl
  unfold site
  rw [h.code, h.current, h.isClosed, current_awaitCalls, code_awaitCalls hlt,
    Code.extendAll_exchange _ _ _ _ (Code.length_redirect _ _ _), hclosed]

theorem sameScope_awaitCalls (d : Draft) (calls : List Invocation) (label : String → String) :
    SameScope d (d.awaitCalls calls label) :=
  ⟨rfl, rfl, rfl, rfl, rfl, rfl⟩

theorem evolves_handshake (ho : d.isClosed = false) {calls : List Invocation} (hne : calls ≠ []) :
    Evolves.Plainly Γ
      (d.Scoped Γ ∧ (∀ c ∈ calls, c.Sound Γ) ∧
        (Γ.program.CallsGrouped → (calls.map Invocation.place).Nodup))
      d (d.handshake calls).2
      ((d.handshake calls).2.Scoped Γ ∧ ∀ v, some v ∈ (d.handshake calls).1 → v.Typed Γ) := by
  obtain ⟨label, heq⟩ := d.handshake_eq calls
  obtain ⟨_, h⟩ := collected_collect (Γ := Γ) calls
    ((d.openState (label "await idle")).awaitCalls calls label)
  have hs : SameScope d ((d.openState (label "await idle")).awaitCalls calls label) :=
    (d.sameScope_openState (label "await idle")).trans (sameScope_awaitCalls _ calls label)
  rw [heq]
  refine ⟨.of_eq ?_ (fun key ↦ ?_) (h.loops.trans hs.loops) ?_,
    fun hc hP ↦ ⟨?_, fun L R E hg ↦ ?_⟩⟩
  · rw [← hs.declarations]
    exact h.declared
  · rw [nextSlot, nextSlot, h.slots, hs.slots]
    exact UInt32.le_refl _
  · rw [h.frame, hs.frame]
  · have hd := hs.scoped hP.1
    exact ⟨⟨h.frame ▸ hd.frame, h.results ▸ hd.results⟩, h.typed hc⟩
  · obtain ⟨E', hopen⟩ := moves_openState (Γ := Γ) (L := L) (R := R) (E := E) ho (label "await idle")
    obtain ⟨b, hb, hbody⟩ := body_openState hg ho (label "await idle")
    have hclosed := isClosed_openState ho (label "await idle")
    obtain ⟨body, hcollects, hsite⟩ := exists_site_collect (Γ := Γ)
      (List.getElem?_eq_some_iff.1 hb).1 calls label
    have hmove := Move.exchange (L := L) (R := R) (E := E') hb hbody hne hP.2.1 hP.2.2 (hcollects hc)
    refine ⟨E', hopen.tail ?_⟩
    rw [hsite, site, hclosed]
    simpa using hmove

end Draft

end Fabric
