import Fabric.Proofs.Component.WellFormed
import Fabric.Proofs.Construction.Batch
import Fabric.Proofs.Synthesis.Planned
import Mathlib.Data.List.Chain

namespace Fabric

def HwExpr.conjuncts : HwExpr → List HwExpr
  | .binary .and a b _ => a.conjuncts ++ b.conjuncts
  | e => [e]

theorem HwExpr.conjuncts_all {conditions : List HwExpr} {e : HwExpr} (he : e ∈ conditions) :
    e.conjuncts ⊆ (HwExpr.all conditions).conjuncts := by
  have hfold (rest : List HwExpr) (acc : HwExpr) :
      (rest.foldl (fun acc next ↦ .binary .and acc next .boolean) acc).conjuncts =
        acc.conjuncts ++ rest.flatMap HwExpr.conjuncts := by
    induction rest generalizing acc with
    | nil => simp
    | cons x rest ih => rw [List.foldl_cons, ih, conjuncts, List.flatMap_cons, List.append_assoc]
  cases conditions with
  | nil => exact nomatch he
  | cons x rest =>
    rw [HwExpr.all, hfold]
    intro y hy
    rcases List.mem_cons.1 he with rfl | he
    · exact List.mem_append_left _ hy
    · exact List.mem_append_right _ (List.mem_flatMap.2 ⟨e, he, hy⟩)

namespace HwStmt

variable {target : String} {slot : UInt32}

theorem starts_cons (s : HwStmt) (ss : List HwStmt) :
    starts target slot (s :: ss) = starts target slot [s] ++ starts target slot ss :=
  starts_append target slot [s] ss

theorem starts_plain {body : List HwStmt} (h : ∀ x ∈ body, x.IsPlain) :
    starts target slot body = [] := by
  induction body with
  | nil => rfl
  | cons x rest ih =>
    obtain ⟨hx, hrest⟩ := List.forall_mem_cons.1 h
    rw [starts_cons, hx target slot, ih hrest, List.append_nil]

theorem starts_drive (c : Invocation) (value : HwExpr) :
    starts target slot [.drive (c.pin .started) value] =
      if c.place = (target, slot) then [value] else [] := by
  have hplace : c.pin .started = .invocation target slot .started ↔ c.place = (target, slot) := by
    simp [Invocation.pin, Invocation.place]
  simp only [starts, drive, drivesAll, drives, List.append_nil, List.filterMap_cons, hplace,
    List.filterMap_nil]
  by_cases h : c.place = (target, slot)
  · rw [if_pos h, if_pos h]
  · rw [if_neg h, if_neg h]

end HwStmt

namespace Invocation

variable {Γ : Interface} {target : String} {slot : UInt32} {calls : List Invocation}

def through (target : String) (slot : UInt32) (calls : List Invocation) (value : HwExpr) : List HwExpr :=
  calls.flatMap fun c ↦ if c.place = (target, slot) then [value] else []

theorem through_eq_nil (h : (target, slot) ∉ calls.map place) (value : HwExpr) :
    Invocation.through target slot calls value = [] := by
  refine List.flatMap_eq_nil_iff.2 fun c hc ↦ if_neg fun hplace ↦ h ?_
  exact hplace ▸ List.mem_map_of_mem hc

theorem through_eq_singleton (hn : (calls.map place).Nodup) (h : (target, slot) ∈ calls.map place)
    (value : HwExpr) : Invocation.through target slot calls value = [value] := by
  induction calls with
  | nil => exact nomatch h
  | cons c rest ih =>
    obtain ⟨hc, hn⟩ := List.nodup_cons.1 hn
    have hcons : Invocation.through target slot (c :: rest) value =
      (if c.place = (target, slot) then [value] else []) ++ Invocation.through target slot rest value := rfl
    rw [hcons]
    rcases List.mem_cons.1 h with heq | hmem
    · rw [if_pos heq.symm, through_eq_nil (heq ▸ hc), List.append_nil]
    · have hne : c.place ≠ (target, slot) := fun heq ↦ hc (heq ▸ hmem)
      rw [if_neg hne, ih hn hmem, List.nil_append]

theorem starts_startBody (calls : List Invocation) :
    HwStmt.starts target slot (calls.flatMap startBody) =
      Invocation.through target slot calls (.bool true) := by
  induction calls with
  | nil => rfl
  | cons c rest ih =>
    have hargs : HwStmt.starts target slot
        (c.arguments.map fun a ↦ .drive (c.pin (.parameter a.1)) a.2) = [] := by
      refine HwStmt.starts_plain fun x hx ↦ ?_
      obtain ⟨a, -, rfl⟩ := List.mem_map.1 hx
      intro target slot
      simp [HwStmt.starts, HwStmt.drivesAll, HwStmt.drives, HwStmt.drive, Invocation.pin]
    have hbody : HwStmt.starts target slot c.startBody =
        if c.place = (target, slot) then [.bool true] else [] := by
      rw [startBody, HwStmt.starts_append, hargs, HwStmt.starts_drive, List.nil_append]
    rw [List.flatMap_cons, HwStmt.starts_append, hbody, ih]
    rfl

end Invocation

namespace Collects

variable {Γ : Interface} {target : String} {slot : UInt32} {calls : List Invocation}
  {body : List HwStmt}

theorem starts_eq (h : Collects Γ calls body) :
    HwStmt.starts target slot body = Invocation.through target slot calls (.bool false) := by
  induction h with
  | nil => rfl
  | value _ _ _ ih =>
    rw [HwStmt.starts_cons, HwStmt.isPlain_setVariable _ _ target slot, HwStmt.starts_cons,
      HwStmt.starts_drive, ih]
    rfl
  | void _ _ ih =>
    rw [HwStmt.starts_cons, HwStmt.starts_drive, ih]
    rfl

/-- The start signal of a call is dropped after its result is read. -/
theorem reads_before (h : Collects Γ calls body) {c : Invocation} (hc : c ∈ calls) :
    ∃ before after, body = before ++ .drive (c.pin .started) (.bool false) :: after ∧
      (c.returnType.isSome → ∃ x, .setVariable x (.signal (c.pin .result)) ∈ before) := by
  induction h with
  | nil => exact nomatch hc
  | @value c' _ _ name _ htype _ _ ih =>
    rcases List.mem_cons.1 hc with rfl | hc
    · exact ⟨[_], _, rfl, fun _ ↦ ⟨name, List.mem_singleton_self _⟩⟩
    · obtain ⟨before, after, rfl, hread⟩ := ih hc
      refine ⟨_ :: _ :: before, after, rfl, fun hsome ↦ ?_⟩
      obtain ⟨x, hx⟩ := hread hsome
      exact ⟨x, List.mem_cons_of_mem _ (List.mem_cons_of_mem _ hx)⟩
  | @void c' _ _ htype _ ih =>
    rcases List.mem_cons.1 hc with rfl | hc
    · exact ⟨[], _, rfl, fun hsome ↦ by rw [htype] at hsome; exact nomatch hsome⟩
    · obtain ⟨before, after, rfl, hread⟩ := ih hc
      refine ⟨_ :: before, after, rfl, fun hsome ↦ ?_⟩
      obtain ⟨x, hx⟩ := hread hsome
      exact ⟨x, List.mem_cons_of_mem _ hx⟩

end Collects

/-- A slot is in use after the given state: the state is one of the two between the start of a batch
and its end. -/
def Batch.Busy (batches : List Batch) (target : String) (slot : UInt32) (i : Nat) : Prop :=
  ∃ β ∈ batches, (target, slot) ∈ β.calls.map Invocation.place ∧ (i = β.first ∨ i = β.first + 1)

namespace Site.Protocol

variable {Γ : Interface} {s : Site} {batches : List Batch} {β : Batch} {target : String}
  {slot : UInt32} {i : Nat} {b : Block}

theorem eq_of_near (h : s.Protocol Γ batches) (hβ : β ∈ batches) {γ : Batch} (hγ : γ ∈ batches)
    (hle : β.first ≤ γ.first + 2) (hge : γ.first ≤ β.first + 2) : β = γ := by
  rcases h.apart β hβ γ hγ with heq | hlt | hlt
  · exact heq
  · omega
  · omega

theorem busy_first (h : s.Protocol Γ batches) (hβ : β ∈ batches) {k : Nat} (hk : k < 2) :
    Batch.Busy batches target slot (β.first + k) ↔
      (target, slot) ∈ β.calls.map Invocation.place := by
  constructor
  · rintro ⟨γ, hγ, hmem, hi⟩
    rwa [h.eq_of_near hβ hγ (by omega) (by omega)]
  · exact fun hmem ↦ ⟨β, hβ, hmem, by omega⟩

theorem not_busy_last (h : s.Protocol Γ batches) (hβ : β ∈ batches) :
    ¬Batch.Busy batches target slot (β.first + 2) := by
  rintro ⟨γ, hγ, -, hi⟩
  obtain rfl := h.eq_of_near hβ hγ (by omega) (by omega)
  omega

theorem not_busy_ready (h : s.Protocol Γ batches) (hβ : β ∈ batches) :
    ¬Batch.Busy batches target slot β.ready := by
  rintro ⟨γ, hγ, -, hi | hi⟩
  · exact (h.ready β hβ γ hγ).1 hi
  · exact (h.ready β hβ γ hγ).2 hi

theorem not_busy_of_entry (h : s.Protocol Γ batches) (hi : i ∈ s.entries) :
    ¬Batch.Busy batches target slot i := by
  rintro ⟨γ, hγ, -, rfl | rfl⟩
  · exact (h.holds γ hγ).unentered 0 (by omega) hi
  · exact (h.holds γ hγ).unentered 1 (by omega) hi

theorem starts_first (h : s.Protocol Γ batches) (hβ : β ∈ batches)
    (hb : s.code[β.first]? = some b) : HwStmt.starts target slot b.body =
      Invocation.through target slot β.calls (.bool true) := by
  obtain rfl := Option.some.inj (hb.symm.trans (h.holds β hβ).start)
  exact Invocation.starts_startBody β.calls

theorem starts_last (h : s.Protocol Γ batches) (hβ : β ∈ batches)
    (hb : s.code[β.first + 2]? = some b) : HwStmt.starts target slot b.body =
      Invocation.through target slot β.calls (.bool false) := by
  obtain ⟨b', body, rest, hb', hbody, hcollects, hplain⟩ := (h.holds β hβ).collect
  obtain rfl := Option.some.inj (hb.symm.trans hb')
  rw [hbody, HwStmt.starts_append, HwStmt.starts_plain hplain, List.append_nil, hcollects.starts_eq]

theorem starts_eq_nil (h : s.Protocol Γ batches) (hb : s.code[i]? = some b)
    (hi : ∀ β ∈ batches, i ≠ β.first ∧ i ≠ β.first + 2) : HwStmt.starts target slot b.body = [] :=
  HwStmt.starts_plain (h.plain i b hb hi)

/-- A state between the start of a batch and its end leads to the next one only. -/
theorem next_of_busy (h : s.Protocol Γ batches) (hi : Batch.Busy batches target slot i)
    (hb : s.code[i]? = some b) {x : DraftTarget} (hx : x ∈ b.transition.targets) :
    ∃ β ∈ batches, i = β.first ∧ x = .state (β.first + 1) ∨
      i = β.first + 1 ∧ x = .state (β.first + 2) := by
  obtain ⟨β, hβ, -, rfl | rfl⟩ := hi
  · obtain rfl := Option.some.inj (hb.symm.trans (h.holds β hβ).start)
    exact ⟨β, hβ, .inl ⟨rfl, List.mem_singleton.1 hx⟩⟩
  · obtain rfl := Option.some.inj (hb.symm.trans (h.holds β hβ).await)
    exact ⟨β, hβ, .inr ⟨rfl, List.mem_singleton.1 hx⟩⟩

def Writes (before after : Prop) (w : List HwExpr) : Prop :=
  before ∧ after ∧ w = [] ∨ ¬before ∧ after ∧ w = [.bool true] ∨
    before ∧ ¬after ∧ w = [.bool false] ∨ ¬before ∧ ¬after ∧ w = []

theorem writes_step (h : s.Protocol Γ batches) (hp : Γ.program.CallsGrouped)
    (hb : s.code[i]? = some b) {j : Nat} (hj : .state j ∈ b.transition.targets) {b' : Block}
    (hb' : s.code[j]? = some b') :
    Writes (Batch.Busy batches target slot i) (Batch.Busy batches target slot j)
      (HwStmt.starts target slot b'.body) := by
  have hbusy {β : Batch} (hβ : β ∈ batches) {k : Nat} (hk : k < 2) :
      Batch.Busy batches target slot (β.first + k) ↔
        (target, slot) ∈ β.calls.map Invocation.place := h.busy_first hβ hk
  rcases h.edges i b hb j hj with hE | ⟨β, hβ, ⟨rfl, rfl⟩ | ⟨rfl, rfl⟩ | ⟨rfl, rfl⟩⟩
  · have hi : ¬Batch.Busy batches target slot i := by
      intro hi
      obtain ⟨β, hβ, ⟨-, hx⟩ | ⟨-, hx⟩⟩ := h.next_of_busy hi hb hj
      · exact (h.holds β hβ).unentered 1 (by omega) (DraftTarget.state.inj hx ▸ hE)
      · exact (h.holds β hβ).unentered 2 (by omega) (DraftTarget.state.inj hx ▸ hE)
    refine .inr (.inr (.inr ⟨hi, h.not_busy_of_entry hE, h.starts_eq_nil hb' fun β hβ ↦ ?_⟩))
    exact ⟨fun heq ↦ (h.holds β hβ).unentered 0 (by omega) (heq ▸ hE),
      fun heq ↦ (h.holds β hβ).unentered 2 (by omega) (heq ▸ hE)⟩
  · rw [h.starts_first hβ hb']
    by_cases hmem : (target, slot) ∈ β.calls.map Invocation.place
    · exact .inr (.inl ⟨h.not_busy_ready hβ, (hbusy hβ Nat.two_pos).2 hmem,
        Invocation.through_eq_singleton ((h.holds β hβ).nodup hp) hmem _⟩)
    · exact .inr (.inr (.inr ⟨h.not_busy_ready hβ, fun hj ↦ hmem ((hbusy hβ Nat.two_pos).1 hj),
        Invocation.through_eq_nil hmem _⟩))
  · have hnil : HwStmt.starts target slot b'.body = [] := by
      obtain rfl := Option.some.inj (hb'.symm.trans (h.holds β hβ).await)
      rfl
    rw [hnil]
    by_cases hmem : (target, slot) ∈ β.calls.map Invocation.place
    · exact .inl ⟨(hbusy hβ Nat.two_pos).2 hmem, (hbusy hβ Nat.one_lt_two).2 hmem, rfl⟩
    · exact .inr (.inr (.inr ⟨fun hi ↦ hmem ((hbusy hβ Nat.two_pos).1 hi),
        fun hj ↦ hmem ((hbusy hβ Nat.one_lt_two).1 hj), rfl⟩))
  · rw [h.starts_last hβ hb']
    by_cases hmem : (target, slot) ∈ β.calls.map Invocation.place
    · exact .inr (.inr (.inl ⟨(hbusy hβ Nat.one_lt_two).2 hmem, h.not_busy_last hβ,
        Invocation.through_eq_singleton ((h.holds β hβ).nodup hp) hmem _⟩))
    · exact .inr (.inr (.inr ⟨fun hi ↦ hmem ((hbusy hβ Nat.one_lt_two).1 hi), h.not_busy_last hβ,
        Invocation.through_eq_nil hmem _⟩))

end Site.Protocol

namespace Component

variable (c : Component)

def writes (target : String) (slot : UInt32) (path : List StateId) : List HwExpr :=
  path.flatMap fun a ↦
    (c.states[a.toNat]?.map fun s ↦ HwStmt.starts target slot s.body).getD []

/-- The start signal of a slot goes up and down in turns along a path, and it is down in the last
state. -/
def Alternates (target : String) (slot : UInt32) (path : List StateId) : Prop :=
  ∃ values : List Bool, c.writes target slot path = values.map .bool ∧ values.IsChain (· ≠ ·) ∧
    values.head? ≠ some false ∧
    (path.getLast? = some c.finishedState → values.getLast? ≠ some true)

/-- A state starts a slot once, only after the last use of the slot has ended, and the slot is
released when it has ended again and its result was read. -/
structure Handshake (p : Program) (target : String) (slot : UInt32) (s : State StateId) : Prop where
  once : HwStmt.starts target slot s.body = [.bool true]
  planned : ∃ o ∈ c.invocations, o.target = target ∧ slot < o.slots
  before : ∀ r ∈ c.states, s.id ∈ r.transition.targets → ∃ e, r.transition = .waitFor e s.id ∧
    .unary .not (.signal (.invocation target slot .finished)) ∈ e.conjuncts
  after : ∃ w ∈ c.states, ∃ r ∈ c.states, ∃ e before after, s.transition = .goto w.id ∧
    w.transition = .waitFor e r.id ∧ .signal (.invocation target slot .finished) ∈ e.conjuncts ∧
    r.body = before ++ .drive (.invocation target slot .started) (.bool false) :: after ∧
    ∀ type, p.HasPin target .result type →
      ∃ x, .setVariable x (.signal (.invocation target slot .result)) ∈ before

/-- Every slot that is started is used by a handshake, and its start signal goes up and down in
turns on every path from the first state that works. -/
structure Disciplined (p : Program) : Prop where
  handshake : ∀ s ∈ c.states, ∀ target slot, .bool true ∈ HwStmt.starts target slot s.body →
    c.Handshake p target slot s
  alternates : ∀ target slot path, (1 :: path).IsChain c.Leads →
    c.Alternates target slot (1 :: path)

theorem writes_cons (target : String) (slot : UInt32) (a : StateId) (path : List StateId) :
    c.writes target slot (a :: path) = c.writes target slot [a] ++ c.writes target slot path := by
  rw [← List.singleton_append]
  exact List.flatMap_append

end Component

theorem Site.Protocol.Writes.step {before after : Prop} {w : List HwExpr}
    (h : Writes before after w) {held : Bool} (hheld : held = true ↔ before) :
    ∃ next, (next = true ↔ after) ∧
      (w = [] ∧ next = held ∨ w = [.bool next] ∧ next ≠ held) := by
  obtain ⟨hb, ha, hw⟩ | ⟨hb, ha, hw⟩ | ⟨hb, ha, hw⟩ | ⟨hb, ha, hw⟩ := h
  · exact ⟨true, by simpa using ha, .inl ⟨hw, (hheld.2 hb).symm⟩⟩
  · refine ⟨true, by simpa using ha, .inr ⟨hw, fun h ↦ hb (hheld.1 h.symm)⟩⟩
  · refine ⟨false, by simpa using ha, .inr ⟨hw, fun h ↦ ?_⟩⟩
    exact absurd (h.trans (hheld.2 hb)) Bool.false_ne_true
  · refine ⟨false, by simpa using ha, .inl ⟨hw, ?_⟩⟩
    exact (Bool.not_eq_true _ ▸ fun h ↦ hb (hheld.1 h) : held = false).symm

structure Component.Made (c : Component) (Γ : Interface) (d : Draft) (E : Set Nat)
    (batches : List Batch) : Prop where
  states : c.states = d.complete
  size : d.nextState < 2 ^ 32
  good : (d.site 0 0 E).Good
  sound : d.code.Sound Γ
  protocol : (d.site 0 0 E).Protocol Γ batches
  start : 1 ∈ E
  grouped : Γ.program.CallsGrouped

namespace Component.Made

variable {c : Component} {Γ : Interface} {d : Draft} {E : Set Nat} {batches : List Batch}
  {target : String} {slot : UInt32}

theorem toNat_number_state (h : c.Made Γ d E batches) {j : Nat} (hj : j < d.nextState) :
    (Draft.number d.nextState (.state j)).toNat = j :=
  UInt32.toNat_ofNat_of_lt' (hj.trans h.size)

theorem toNat_number_finished (h : c.Made Γ d E batches) :
    (Draft.number d.nextState .finished).toNat = d.nextState :=
  UInt32.toNat_ofNat_of_lt' h.size

theorem finishedState (h : c.Made Γ d E batches) : c.finishedState.toNat = d.nextState := by
  unfold Component.finishedState
  rw [h.states, d.length_complete, Nat.add_sub_cancel]
  exact h.toNat_number_finished

theorem getElem? (h : c.Made Γ d E batches) {i : Nat} {s : State StateId}
    (hs : c.states[i]? = some s) :
    (∃ x, d.states[i]? = some x ∧ s = x.rename (Draft.number d.nextState)) ∨
      i = d.nextState ∧ s = (Draft.lastState d.nextState).rename (Draft.number d.nextState) := by
  have hi := (List.getElem?_eq_some_iff.1 hs).1
  rw [h.states] at hs hi
  rw [d.length_complete] at hi
  rcases Nat.lt_succ_iff_lt_or_eq.1 hi with hi | rfl
  · rw [Draft.getElem?_complete hi] at hs
    obtain ⟨x, hx, rfl⟩ := Option.map_eq_some_iff.1 hs
    exact .inl ⟨x, hx, rfl⟩
  · exact .inr ⟨rfl, Option.some.inj (hs.symm.trans d.getElem?_complete_last)⟩

theorem target_eq (h : c.Made Γ d E batches) {i : Nat} {b : Block} (hb : d.code[i]? = some b)
    {x : DraftTarget} (hx : x ∈ b.transition.targets) :
    x = .finished ∨ ∃ j, x = .state j ∧ 0 < j ∧ j < d.nextState := by
  have hx := (h.sound b (List.mem_of_getElem? hb)).targets x hx
  rwa [d.length_code] at hx

theorem first_pos (h : c.Made Γ d E batches) {β : Batch} (hβ : β ∈ batches) : 0 < β.first := by
  have hx := h.target_eq (h.protocol.holds β hβ).ready (List.mem_singleton_self _)
  obtain hx | ⟨j, hx, hpos, -⟩ := hx
  · exact nomatch hx
  · rwa [DraftTarget.state.inj hx]

theorem not_busy_zero (h : c.Made Γ d E batches) : ¬Batch.Busy batches target slot 0 := by
  rintro ⟨β, hβ, -, hzero⟩
  have hpos := h.first_pos hβ
  omega

theorem not_busy_end (h : c.Made Γ d E batches) :
    ¬Batch.Busy batches target slot d.nextState := by
  rintro ⟨β, hβ, -, hend⟩
  have hlt := (h.protocol.holds β hβ).lt
  rw [Draft.site, d.length_code] at hlt
  omega

theorem writes_state (h : c.Made Γ d E batches) {a : StateId} {b : Block}
    (hb : d.code[a.toNat]? = some b) :
    c.writes target slot [a] = HwStmt.starts target slot b.body := by
  have hi := (List.getElem?_eq_some_iff.1 hb).1
  rw [d.length_code] at hi
  rw [d.getElem?_code] at hb
  obtain ⟨x, hx, rfl⟩ := Option.map_eq_some_iff.1 hb
  simp only [Component.writes, List.flatMap_cons, List.flatMap_nil, List.append_nil, h.states,
    Draft.getElem?_complete hi, hx, Option.map_some, Option.getD_some]
  rfl

theorem writes_end (h : c.Made Γ d E batches) {a : StateId} (ha : a.toNat = d.nextState) :
    c.writes target slot [a] = [] := by
  simp only [Component.writes, List.flatMap_cons, List.flatMap_nil, List.append_nil, h.states, ha,
    d.getElem?_complete_last, Option.map_some, Option.getD_some]
  rfl

theorem writes_leads (h : c.Made Γ d E batches) {a b : StateId} (hl : c.Leads a b) :
    Site.Protocol.Writes (Batch.Busy batches target slot a.toNat)
      (Batch.Busy batches target slot b.toNat) (c.writes target slot [b]) := by
  have hcode {i : Nat} (hi : i < d.nextState) : ∃ b, d.code[i]? = some b :=
    ⟨_, List.getElem?_eq_getElem (by rwa [d.length_code])⟩
  obtain ⟨s, hs, hb⟩ := hl
  obtain ⟨x, hx, rfl⟩ | ⟨ha, rfl⟩ := h.getElem? hs
  · rw [State.rename, Transition.targets_map] at hb
    obtain ⟨y, hy, rfl⟩ := List.mem_map.1 hb
    have hblock : d.code[a.toNat]? = some x.block := by rw [d.getElem?_code, hx, Option.map_some]
    obtain rfl | ⟨j, rfl, -, hj⟩ := h.target_eq hblock hy
    · rw [h.toNat_number_finished, h.writes_end h.toNat_number_finished]
      refine .inr (.inr (.inr ⟨fun hbusy ↦ ?_, h.not_busy_end, rfl⟩))
      obtain ⟨β, -, ⟨-, hx⟩ | ⟨-, hx⟩⟩ := h.protocol.next_of_busy hbusy hblock hy
      · cases hx
      · cases hx
    · obtain ⟨b', hb'⟩ := hcode hj
      have hnumber := h.toNat_number_state hj
      rw [hnumber, h.writes_state (hnumber.symm ▸ hb')]
      exact h.protocol.writes_step h.grouped hblock hy hb'
  · obtain rfl := List.mem_singleton.1 hb
    obtain ⟨b', hb'⟩ := hcode (h.good.current_pos.trans (d.length_code ▸ h.good.current_lt))
    have hzero : (Draft.number d.nextState (.state 0)).toNat = 0 := rfl
    rw [ha, hzero, h.writes_state (hzero.symm ▸ hb')]
    refine .inr (.inr (.inr ⟨h.not_busy_end, h.not_busy_zero, ?_⟩))
    refine h.protocol.starts_eq_nil hb' fun β hβ ↦ ?_
    have hpos := h.first_pos hβ
    omega

/-- Along a path a start signal goes up and down in turns, from the value that it has before. -/
theorem writes_path (h : c.Made Γ d E batches) (path : List StateId) (a : StateId) (held : Bool)
    (hheld : held = true ↔ Batch.Busy batches target slot a.toNat)
    (hpath : (a :: path).IsChain c.Leads) :
    ∃ values : List Bool, c.writes target slot path = values.map .bool ∧
      (held :: values).IsChain (· ≠ ·) ∧ ∃ last, (held :: values).getLast? = some last ∧
        ∀ z, (a :: path).getLast? = some z →
          (last = true ↔ Batch.Busy batches target slot z.toNat) := by
  induction path generalizing a held with
  | nil =>
    refine ⟨[], rfl, .singleton _, held, rfl, fun z hz ↦ ?_⟩
    rwa [← Option.some.inj hz]
  | cons b rest ih =>
    obtain ⟨hl, hrest⟩ := List.isChain_cons_cons.1 hpath
    obtain ⟨next, hnext, hw⟩ := (h.writes_leads hl).step hheld
    obtain ⟨values, hvalues, hchain, last, hlast, hz⟩ := ih b next hnext hrest
    have hwrites : c.writes target slot (b :: rest) =
        c.writes target slot [b] ++ values.map .bool := by
      rw [c.writes_cons, hvalues]
    obtain ⟨hnil, rfl⟩ | ⟨hone, hne⟩ := hw
    · exact ⟨values, by rw [hwrites, hnil, List.nil_append], hchain, last, hlast,
        fun z hz' ↦ hz z (by rwa [List.getLast?_cons_cons] at hz')⟩
    · refine ⟨next :: values, by rw [hwrites, hone]; rfl, List.isChain_cons_cons.2
        ⟨hne.symm, hchain⟩, last, by rwa [List.getLast?_cons_cons], fun z hz' ↦ hz z ?_⟩
      rwa [List.getLast?_cons_cons] at hz'

theorem alternates (h : c.Made Γ d E batches) (path : List StateId)
    (hpath : (1 :: path).IsChain c.Leads) : c.Alternates target slot (1 :: path) := by
  have hidle : ¬Batch.Busy batches target slot (1 : StateId).toNat :=
    h.protocol.not_busy_of_entry h.start
  obtain ⟨values, hvalues, hchain, last, hlast, hend⟩ :=
    h.writes_path path 1 false (by simpa using hidle) hpath
  obtain ⟨b, hb⟩ : ∃ b, d.code[(1 : StateId).toNat]? = some b :=
    ⟨_, List.getElem?_eq_getElem (h.good.entries 1 h.start).2⟩
  have hfirst : c.writes target slot [1] = [] := by
    rw [h.writes_state hb]
    refine h.protocol.starts_eq_nil hb fun β hβ ↦ ⟨fun heq ↦ ?_, fun heq ↦ ?_⟩
    · exact (h.protocol.holds β hβ).unentered 0 (by omega) (heq ▸ h.start)
    · exact (h.protocol.holds β hβ).unentered 2 (by omega) (heq ▸ h.start)
  obtain ⟨hhead, hchain⟩ := List.isChain_cons.1 hchain
  refine ⟨values, ?_, hchain, fun hfalse ↦ hhead false hfalse rfl, fun hfinished htrue ↦ ?_⟩
  · rw [c.writes_cons, hfirst, hvalues, List.nil_append]
  · have hbusy := hend _ hfinished
    rw [h.finishedState] at hbusy
    have hlast' : last = true := by
      rw [List.getLast?_cons, htrue] at hlast
      exact (Option.some.inj hlast).symm
    exact h.not_busy_end (hbusy.1 hlast')

theorem number_injective (h : c.Made Γ d E batches) {i : Nat} (hi : i < d.nextState)
    {x : DraftTarget} (hx : x = .finished ∨ ∃ j, x = .state j ∧ 0 < j ∧ j < d.nextState)
    (heq : Draft.number d.nextState (.state i) = Draft.number d.nextState x) : x = .state i := by
  have heq := congrArg UInt32.toNat heq
  rw [h.toNat_number_state hi] at heq
  obtain rfl | ⟨j, rfl, -, hj⟩ := hx
  · rw [h.toNat_number_finished] at heq
    omega
  · rw [h.toNat_number_state hj] at heq
    rw [heq]

theorem mem_states (h : c.Made Γ d E batches) {i : Nat} {b : Block} (hb : d.code[i]? = some b) :
    ∃ s ∈ c.states, s.id = Draft.number d.nextState b.id ∧ s.body = b.body ∧
      s.transition = b.transition.map (Draft.number d.nextState) := by
  have hi := (List.getElem?_eq_some_iff.1 hb).1
  rw [d.length_code] at hi
  rw [d.getElem?_code] at hb
  obtain ⟨x, hx, rfl⟩ := Option.map_eq_some_iff.1 hb
  refine ⟨x.rename (Draft.number d.nextState), ?_, rfl, rfl, rfl⟩
  rw [h.states]
  refine List.mem_of_getElem? (i := i) ?_
  rw [Draft.getElem?_complete hi, hx, Option.map_some]

theorem batch_of_start (h : c.Made Γ d E batches) {s : State StateId} (hs : s ∈ c.states)
    (htrue : .bool true ∈ HwStmt.starts target slot s.body) :
    ∃ β ∈ batches, ∃ x, d.states[β.first]? = some x ∧ s = x.rename (Draft.number d.nextState) ∧
      (target, slot) ∈ β.calls.map Invocation.place := by
  obtain ⟨i, hi⟩ := List.mem_iff_getElem?.1 hs
  obtain ⟨x, hx, rfl⟩ | ⟨-, rfl⟩ := h.getElem? hi
  · have hblock : d.code[i]? = some x.block := by rw [d.getElem?_code, hx, Option.map_some]
    have hthrough {β : Batch} {value : HwExpr} (hw : HwStmt.starts target slot x.block.body =
        Invocation.through target slot β.calls value) :
        (target, slot) ∈ β.calls.map Invocation.place ∧ value = .bool true := by
      have htrue : .bool true ∈ Invocation.through target slot β.calls value := hw ▸ htrue
      obtain ⟨y, hy, hmem⟩ := List.mem_flatMap.1 htrue
      split at hmem
      next hplace =>
        exact ⟨hplace ▸ List.mem_map_of_mem hy, (List.mem_singleton.1 hmem).symm⟩
      next => exact nomatch hmem
    by_contra hno
    have hout : ∀ β ∈ batches, i ≠ β.first ∧ i ≠ β.first + 2 := by
      refine fun β hβ ↦ ⟨fun heq ↦ hno ?_, fun heq ↦ ?_⟩
      · subst heq
        exact ⟨β, hβ, x, hx, rfl, (hthrough (h.protocol.starts_first hβ hblock)).1⟩
      · subst heq
        exact nomatch (hthrough (h.protocol.starts_last hβ hblock)).2
    have hnil : HwStmt.starts target slot x.block.body = [] :=
      h.protocol.starts_eq_nil hblock hout
    rw [show (x.rename (Draft.number d.nextState)).body = x.block.body from rfl, hnil] at htrue
    exact nomatch htrue
  · exact nomatch htrue

/-- Only the state that waits for its slots leads to the first state of a batch. -/
theorem before_start (h : c.Made Γ d E batches) {β : Batch} (hβ : β ∈ batches)
    {r : State StateId} (hr : r ∈ c.states)
    (hmem : Draft.number d.nextState (.state β.first) ∈ r.transition.targets) :
    r.transition = .waitFor (Invocation.idle β.calls)
      (Draft.number d.nextState (.state β.first)) := by
  have hlt : β.first + 2 < d.nextState := by
    have hlt := (h.protocol.holds β hβ).lt
    rwa [Draft.site, d.length_code] at hlt
  obtain ⟨j, hj⟩ := List.mem_iff_getElem?.1 hr
  obtain ⟨y, hy, rfl⟩ | ⟨-, rfl⟩ := h.getElem? hj
  · have hblock : d.code[j]? = some y.block := by rw [d.getElem?_code, hy, Option.map_some]
    rw [State.rename, Transition.targets_map] at hmem
    obtain ⟨x, hx, heq⟩ := List.mem_map.1 hmem
    obtain rfl := h.number_injective (by omega) (h.target_eq hblock hx) heq.symm
    rcases h.protocol.edges j y.block hblock β.first hx with hE |
      ⟨γ, hγ, ⟨rfl, hf⟩ | ⟨rfl, hf⟩ | ⟨rfl, hf⟩⟩
    · exact absurd hE ((h.protocol.holds β hβ).unentered 0 (by omega))
    · obtain rfl := h.protocol.eq_of_near hβ hγ (by omega) (by omega)
      have hready := Option.some.inj (hblock.symm.trans (h.protocol.holds β hβ).ready)
      exact congrArg (Transition.map _) (congrArg Block.transition hready)
    · obtain rfl := h.protocol.eq_of_near hβ hγ (by omega) (by omega)
      omega
    · obtain rfl := h.protocol.eq_of_near hβ hγ (by omega) (by omega)
      omega
  · have hzero := congrArg UInt32.toNat (List.mem_singleton.1 hmem)
    rw [h.toNat_number_state (by omega)] at hzero
    have hpos := h.first_pos hβ
    exact absurd hzero hpos.ne'

end Component.Made

theorem Invocation.Sound.returns {Γ : Interface} {c : Invocation} (h : c.Sound Γ)
    (hn : Γ.program.NamesDistinct) {type : HwType}
    (hp : Γ.program.HasPin c.target .result type) : c.returnType = some type := by
  obtain ⟨m, hm, hname, hresult⟩ := h.result
  cases hp with
  | result hm' hname' hresult' =>
    obtain rfl := List.inj_on_of_nodup_map hn hm hm' (hname.trans hname'.symm)
    exact Except.ok.inj (hresult.symm.trans hresult')

theorem Component.Made.handshake {c : Component} {p : Program} {d : Draft} {E : Set Nat}
    {batches : List Batch} (h : c.Made (c.interface p) d E batches) (hn : p.NamesDistinct)
    {s : State StateId} (hs : s ∈ c.states) {target : String} {slot : UInt32}
    (htrue : .bool true ∈ HwStmt.starts target slot s.body) : c.Handshake p target slot s := by
  obtain ⟨β, hβ, x, hx, rfl, hplace⟩ := h.batch_of_start hs htrue
  obtain ⟨call, hcall, hcplace⟩ := List.mem_map.1 hplace
  obtain ⟨rfl, rfl⟩ := Prod.mk.inj hcplace
  have hold := h.protocol.holds β hβ
  have hblock : d.code[β.first]? = some x.block := by rw [d.getElem?_code, hx, Option.map_some]
  have hstart := Option.some.inj (hblock.symm.trans hold.start)
  have hid : x.id = .state β.first := congrArg Block.id hstart
  obtain ⟨b, body, rest, hb, hbody, hcollects, -⟩ := hold.collect
  obtain ⟨w, hw, hwid, -, hwt⟩ := h.mem_states hold.await
  obtain ⟨r, hr, hrid, hrbody, -⟩ := h.mem_states hb
  have hrnumber : b.id = .state (β.first + 2) := h.good.ids _ b hb
  obtain ⟨before, after, hsplit, hread⟩ := hcollects.reads_before hcall
  constructor
  case once =>
    have hw : HwStmt.starts call.target call.slot x.block.body = _ :=
      h.protocol.starts_first hβ hblock
    exact hw.trans (Invocation.through_eq_singleton (hold.nodup h.grouped) hplace _)
  case planned => exact (hold.sound call hcall).slot
  case before =>
    intro r hr hmem
    have hmem : Draft.number d.nextState (.state β.first) ∈ r.transition.targets := hid ▸ hmem
    refine ⟨Invocation.idle β.calls, ?_, ?_⟩
    · have hid' : (x.rename (Draft.number d.nextState)).id =
        Draft.number d.nextState (.state β.first) := congrArg (Draft.number _) hid
      rw [hid']
      exact h.before_start hβ hr hmem
    · refine HwExpr.conjuncts_all (List.mem_map_of_mem hcall) ?_
      exact List.mem_singleton_self _
  case after =>
    refine ⟨w, hw, r, hr, .all (β.calls.map Invocation.finished), before, after ++ rest, ?_, ?_, ?_, ?_, fun type hpin ↦ ?_⟩
    · rw [hwid]
      exact congrArg (Transition.map _) (congrArg Block.transition hstart)
    · rw [hrid, hrnumber]
      exact hwt
    · refine HwExpr.conjuncts_all (List.mem_map_of_mem hcall) ?_
      exact List.mem_singleton_self _
    · rw [hrbody, hbody, hsplit, List.append_assoc]
      rfl
    · refine hread ?_
      rw [(hold.sound call hcall).returns hn hpin]
      rfl

/-- The component of a planned member uses its slots by handshakes. -/
theorem Lowering.disciplined_component {l : Lowering} (hl : l.Planned) {c : Component}
    (h : l.component = .ok c) (hsize : c.states.length ≤ 2 ^ 32) : c.Disciplined l.program := by
  obtain ⟨d, E, hstates, hm⟩ := moves_component h
  obtain ⟨batches, hp⟩ := hm.protocol Site.good_start Site.protocol_start
  have hlen : c.states.length = d.nextState + 1 := by rw [hstates, d.length_complete]
  have hmade : c.Made (c.interface l.program) d E batches :=
    ⟨hstates, by omega, hm.good Site.good_start, hm.sound Site.good_start Site.sound_start, hp,
      hm.entries rfl, hl.callsGrouped⟩
  exact ⟨fun s hs target slot ↦ hmade.handshake hl.namesDistinct hs,
    fun target slot path ↦ hmade.alternates path⟩

/-- A member that calls another one twice in every round of a loop does so by handshakes. -/
theorem disciplined_pairedCaller : ∃ (l : Lowering) (c : Component), l.Planned ∧
    l.component = .ok c ∧ c.states.length = 9 ∧ c.Disciplined l.program := by
  obtain ⟨l, c, hl, hc, hlength⟩ := exists_pairedCaller
  exact ⟨l, c, hl, hc, hlength, Lowering.disciplined_component hl hc (by omega)⟩

end Fabric
