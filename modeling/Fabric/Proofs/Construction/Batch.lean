import Fabric.Proofs.Construction.Member

namespace Fabric

/-- A batch of calls: the state that waits for its slots, and the first of the three states that
follow. -/
structure Batch where
  ready : Nat
  first : Nat
  calls : List Invocation

namespace Site

variable (Γ : Interface)

/-- The states of a batch are in place. -/
structure Holds (s : Site) (β : Batch) : Prop where
  sound : ∀ c ∈ β.calls, c.Sound Γ
  nodup : Γ.program.CallsGrouped → (β.calls.map Invocation.place).Nodup
  fixed : ∀ i ∈ [β.ready, β.first, β.first + 1], s.Fixed i
  ready : s.code[β.ready]? =
    some ⟨.state β.ready, [], .waitFor (Invocation.idle β.calls) (.state β.first)⟩
  start : s.code[β.first]? =
    some ⟨.state β.first, β.calls.flatMap Invocation.startBody, .goto (.state (β.first + 1))⟩
  await : s.code[β.first + 1]? = some ⟨.state (β.first + 1), [],
    .waitFor (.all (β.calls.map Invocation.finished)) (.state (β.first + 2))⟩
  collect : ∃ b body rest, s.code[β.first + 2]? = some b ∧ b.body = body ++ rest ∧
    Collects Γ β.calls body ∧ ∀ x ∈ rest, x.IsPlain
  unentered : ∀ k < 3, β.first + k ∉ s.entries

/-- The batches of a machine are in place and apart from each other, only their states drive start
signals, and only their states lead to states that are not entries. -/
structure Protocol (batches : List Batch) (s : Site) : Prop where
  holds : ∀ β ∈ batches, s.Holds Γ β
  apart : ∀ β ∈ batches, ∀ γ ∈ batches,
    β = γ ∨ β.first + 2 < γ.first ∨ γ.first + 2 < β.first
  ready : ∀ β ∈ batches, ∀ γ ∈ batches, β.ready ≠ γ.first ∧ β.ready ≠ γ.first + 1
  plain : ∀ (i : Nat) (b : Block), s.code[i]? = some b →
    (∀ β ∈ batches, i ≠ β.first ∧ i ≠ β.first + 2) → ∀ x ∈ b.body, x.IsPlain
  edges : ∀ (i : Nat) (b : Block), s.code[i]? = some b → ∀ j, .state j ∈ b.transition.targets →
    j ∈ s.entries ∨ ∃ β ∈ batches, i = β.ready ∧ j = β.first ∨ i = β.first ∧ j = β.first + 1 ∨
      i = β.first + 1 ∧ j = β.first + 2

end Site

variable {Γ : Interface} {s t : Site} {β : Batch} {batches : List Batch}

namespace Site.Holds

theorem lt (h : s.Holds Γ β) : β.first + 2 < s.code.length := by
  obtain ⟨b, body, rest, hb, -⟩ := h.collect
  exact (List.getElem?_eq_some_iff.1 hb).1

end Site.Holds

namespace Move

theorem holds (h : Move Γ s t) (hg : s.Good) (hβ : s.Holds Γ β) : t.Holds Γ β := by
  have hkeep {i : Nat} (hi : i ∈ [β.ready, β.first, β.first + 1]) {b : Block}
      (hb : s.code[i]? = some b) : t.Fixed i ∧ t.code[i]? = some b := by
    have hf := h.fixed hg (List.getElem?_eq_some_iff.1 hb).1 (hβ.fixed i hi)
    exact ⟨hf.1, hf.2.trans hb⟩
  have hready := hkeep (by simp) hβ.ready
  have hstart := hkeep (by simp) hβ.start
  have hawait := hkeep (by simp) hβ.await
  refine ⟨hβ.sound, hβ.nodup, ?_, hready.2, hstart.2, hawait.2, ?_, fun k hk hmem ↦ ?_⟩
  · simpa using ⟨hready.1, hstart.1, hawait.1⟩
  · obtain ⟨b, body, rest, hb, hbody, hcollects, hplain⟩ := hβ.collect
    obtain ⟨b', more, hb', hbody', hplain'⟩ := h.body hb
    refine ⟨b', body, rest ++ more, hb', ?_, hcollects, List.forall_mem_append.2 ⟨hplain, hplain'⟩⟩
    rw [hbody', hbody, List.append_assoc]
  · have hlt := hβ.lt
    cases h with
    | fork =>
      rcases hmem with heq | hmem
      · dsimp only at hlt
        omega
      · exact hβ.unentered k hk hmem
    | _ => exact hβ.unentered k hk hmem

theorem protocol_of_same (h : Move Γ s t) (hg : s.Good) (hp : s.Protocol Γ batches)
    (hplain : ∀ (i : Nat) (b : Block), t.code[i]? = some b → b.body = [] ∨
      ∃ b' rest, s.code[i]? = some b' ∧ b.body = b'.body ++ rest ∧ ∀ x ∈ rest, x.IsPlain)
    (hedges : ∀ (i : Nat) (b : Block), t.code[i]? = some b → ∀ j, .state j ∈ b.transition.targets →
      j ∈ t.entries ∨ ∃ b', s.code[i]? = some b' ∧ .state j ∈ b'.transition.targets) :
    t.Protocol Γ batches where
  holds β hβ := h.holds hg (hp.holds β hβ)
  apart := hp.apart
  ready := hp.ready
  plain i b hb hi := by
    obtain hnil | ⟨b', rest, hb', hbody, hrest⟩ := hplain i b hb
    · rw [hnil]
      nofun
    · rw [hbody]
      exact List.forall_mem_append.2 ⟨hp.plain i b' hb' hi, hrest⟩
  edges i b hb j hj := by
    obtain hE | ⟨b', hb', hj⟩ := hedges i b hb j hj
    · exact .inl hE
    · exact (hp.edges i b' hb' j hj).imp_left fun hE ↦ h.entries hE

theorem holds_exchange {code : Code} {i : Nat} {L R : Multiset Nat} {E : Set Nat}
    {b : Block} {calls : List Invocation} {body : List HwStmt}
    (hg : Site.Good ⟨code, i, false, L, R, E⟩) (hb : code[i]? = some b) (hbody : b.body = [])
    (hsound : ∀ c ∈ calls, c.Sound Γ)
    (hnodup : Γ.program.CallsGrouped → (calls.map Invocation.place).Nodup)
    (hcollects : Collects Γ calls body) :
    Site.Holds Γ ⟨code.redirect i (.waitFor (Invocation.idle calls) (.state code.length))
      ++ .exchange calls body code.length, code.length + 2, false, L, R, E⟩
      ⟨i, code.length, calls⟩ := by
  have hi : i < code.length := hg.current_lt
  have hout {k : Nat} (hk : code.length ≤ k) : k ∉ L + R := by
    intro hmem
    exact absurd (hg.pending k hmem).2.lt (Nat.not_lt.2 hk)
  have hnew (k : Nat) : (code.redirect i (.waitFor (Invocation.idle calls) (.state code.length))
      ++ Code.exchange calls body code.length)[code.length + k]? =
        (Code.exchange calls body code.length)[k]? := by
    rw [List.getElem?_append_right (by simp), Code.length_redirect, Nat.add_sub_cancel_left]
  refine ⟨hsound, hnodup, ?_, ?_, hnew 0, hnew 1, ⟨_, body, [], hnew 2, ?_, hcollects, nofun⟩,
    fun k _ hmem ↦ ?_⟩
  · refine List.forall_mem_cons.2 ⟨⟨(hg.opened rfl).1, fun _ ↦ ?_⟩, List.forall_mem_cons.2
      ⟨⟨hout (Nat.le_refl _), fun _ ↦ ?_⟩, List.forall_mem_singleton.2
        ⟨hout (Nat.le_add_right _ _), fun _ ↦ ?_⟩⟩⟩
    · exact Nat.ne_of_lt (Nat.lt_add_right 2 hi)
    · exact Nat.ne_of_lt (Nat.lt_add_of_pos_right Nat.two_pos)
    · exact Nat.ne_of_lt (Nat.lt_succ_self _)
  · rw [List.getElem?_append_left (by simpa using hi), Code.getElem?_redirect_eq, hb,
      Option.map_some, ← hg.ids i b hb, hbody]
  · rw [List.append_nil]
  · exact absurd (hg.entries _ hmem).2 (by simp)

/-- What drives start signals and what leads to states that are not entries, after a batch. -/
theorem protocol_exchange {code : Code} {i : Nat} {L R : Multiset Nat} {E : Set Nat}
    {calls : List Invocation} {body : List HwStmt}
    (hm : Move Γ ⟨code, i, false, L, R, E⟩
      ⟨code.redirect i (.waitFor (Invocation.idle calls) (.state code.length))
        ++ .exchange calls body code.length, code.length + 2, false, L, R, E⟩)
    (hg : Site.Good ⟨code, i, false, L, R, E⟩)
    (hp : Site.Protocol Γ batches ⟨code, i, false, L, R, E⟩)
    (hnew : Site.Holds Γ ⟨code.redirect i (.waitFor (Invocation.idle calls) (.state code.length))
      ++ .exchange calls body code.length, code.length + 2, false, L, R, E⟩
      ⟨i, code.length, calls⟩) :
    Site.Protocol Γ (⟨i, code.length, calls⟩ :: batches)
      ⟨code.redirect i (.waitFor (Invocation.idle calls) (.state code.length))
        ++ .exchange calls body code.length, code.length + 2, false, L, R, E⟩ := by
  have hi : i < code.length := hg.current_lt
  have hlt (β) (hβ : β ∈ batches) : β.first + 2 < code.length := (hp.holds β hβ).lt
  have hready (β) (hβ : β ∈ batches) : β.ready < code.length :=
    (List.getElem?_eq_some_iff.1 (hp.holds β hβ).ready).1
  have hopen {k : Nat} {β} (hβ : β ∈ batches) (hk : k ∈ [β.ready, β.first, β.first + 1]) : k ≠ i :=
    ((hp.holds β hβ).fixed k hk).2 rfl
  -- A state after the batch was there before, or it is one of the three new ones.
  have hstates {k : Nat} {b : Block}
      (hb : (code.redirect i (.waitFor (Invocation.idle calls) (.state code.length))
        ++ Code.exchange calls body code.length)[k]? = some b) :
      (k = i ∧ b.transition = .waitFor (Invocation.idle calls) (.state code.length) ∧
        ∃ b', code[i]? = some b' ∧ b'.body = b.body) ∨
      (k ≠ i ∧ code[k]? = some b) ∨
      (∃ m < 3, k = code.length + m ∧ (Code.exchange calls body code.length)[m]? = some b) := by
    rcases Nat.lt_or_ge k code.length with hk | hk
    · rw [List.getElem?_append_left (by simpa using hk)] at hb
      rcases eq_or_ne i k with rfl | hne
      · rw [Code.getElem?_redirect_eq] at hb
        obtain ⟨b', hb', rfl⟩ := Option.map_eq_some_iff.1 hb
        exact .inl ⟨rfl, rfl, b', hb', rfl⟩
      · rw [Code.getElem?_redirect_ne _ _ hne] at hb
        exact .inr (.inl ⟨hne.symm, hb⟩)
    · rw [List.getElem?_append_right (by simpa using hk), Code.length_redirect] at hb
      have hm := (List.getElem?_eq_some_iff.1 hb).1
      simp only [Code.exchange, List.length_cons, List.length_nil] at hm
      exact .inr (.inr ⟨k - code.length, hm, (Nat.add_sub_cancel' hk).symm, hb⟩)
  refine ⟨List.forall_mem_cons.2 ⟨hnew, fun β hβ ↦ hm.holds hg (hp.holds β hβ)⟩, ?_, ?_, ?_, ?_⟩
  · intro β hβ γ hγ
    rcases List.mem_cons.1 hβ with rfl | hβ <;> rcases List.mem_cons.1 hγ with rfl | hγ
    · exact .inl rfl
    · exact .inr (.inr (hlt γ hγ))
    · exact .inr (.inl (hlt β hβ))
    · exact hp.apart β hβ γ hγ
  · intro β hβ γ hγ
    rcases List.mem_cons.1 hβ with rfl | hβ <;> rcases List.mem_cons.1 hγ with rfl | hγ
    · dsimp only
      omega
    · exact ⟨(hopen hγ (by simp)).symm, (hopen hγ (by simp)).symm⟩
    · have hr := hready β hβ
      dsimp only
      omega
    · exact hp.ready β hβ γ hγ
  · intro k b hb hk
    obtain ⟨hk₀, hrest⟩ := List.forall_mem_cons.1 hk
    obtain ⟨rfl, -, b', hb', hbody⟩ | ⟨-, hold⟩ | ⟨m, hm3, rfl, hadded⟩ := hstates hb
    · rw [← hbody]
      exact hp.plain k b' hb' hrest
    · exact hp.plain k b hold hrest
    · obtain rfl | rfl | rfl : m = 0 ∨ m = 1 ∨ m = 2 := by omega
      · exact absurd rfl hk₀.1
      · obtain rfl := Option.some.inj hadded
        exact List.forall_mem_nil _
      · exact absurd rfl hk₀.2
  · intro k b hb j hj
    obtain ⟨rfl, ht, -⟩ | ⟨-, hold⟩ | ⟨m, hm3, rfl, hadded⟩ := hstates hb
    · rw [ht] at hj
      have hj : j = code.length := DraftTarget.state.inj (List.mem_singleton.1 hj)
      exact .inr ⟨_, List.mem_cons_self, .inl ⟨rfl, hj⟩⟩
    · refine (hp.edges k b hold j hj).imp_right ?_
      rintro ⟨β, hβ, hcases⟩
      exact ⟨β, List.mem_cons_of_mem _ hβ, hcases⟩
    · refine .inr ⟨_, List.mem_cons_self, ?_⟩
      obtain rfl | rfl | rfl : m = 0 ∨ m = 1 ∨ m = 2 := by omega
      · obtain rfl := Option.some.inj hadded
        exact .inr (.inl ⟨rfl, DraftTarget.state.inj (List.mem_singleton.1 hj)⟩)
      · obtain rfl := Option.some.inj hadded
        exact .inr (.inr ⟨rfl, DraftTarget.state.inj (List.mem_singleton.1 hj)⟩)
      · obtain rfl := Option.some.inj hadded
        cases List.mem_singleton.1 hj

theorem protocol (h : Move Γ s t) (hg : s.Good) (hp : s.Protocol Γ batches) :
    ∃ batches', t.Protocol Γ batches' := by
  have hsame {b : Block} : ∃ rest, b.body = b.body ++ rest ∧ ∀ x ∈ rest, x.IsPlain :=
    ⟨[], (List.append_nil _).symm, List.forall_mem_nil _⟩
  have hcopy := h
  cases h with
  | push _ hplain =>
    refine ⟨batches, hcopy.protocol_of_same hg hp (fun k b hb ↦ ?_) fun k b hb j hj ↦ ?_⟩
    all_goals
      rw [Code.extend, List.getElem?_modify] at hb
      obtain ⟨b', hb', rfl⟩ := Option.map_eq_some_iff.1 hb
    · refine .inr ⟨b', ?_⟩
      split
      · exact ⟨_, hb', rfl, List.forall_mem_singleton.2 hplain⟩
      · exact ⟨_, hb', hsame.choose_spec⟩
    · refine .inr ⟨b', hb', ?_⟩
      split at hj <;> exact hj
  | suspend | leave | ret | resume | release =>
    exact ⟨batches, hcopy.protocol_of_same hg hp (fun k b hb ↦ .inr ⟨b, _, hb, hsame.choose_spec⟩)
      fun k b hb j hj ↦ .inr ⟨b, hb, hj⟩⟩
  | @fork code i L R E =>
    have hold {k : Nat} {b : Block} (hb : (code ++ [Block.fresh code.length])[k]? = some b) :
        code[k]? = some b ∨ b = .fresh code.length := by
      rcases Nat.lt_or_ge k code.length with hk | hk
      · rw [List.getElem?_append_left hk] at hb
        exact .inl hb
      · rw [List.getElem?_append_right hk] at hb
        exact .inr (List.mem_singleton.1 (List.mem_of_getElem? hb))
    refine ⟨batches, hcopy.protocol_of_same hg hp (fun k b hb ↦ ?_) fun k b hb j hj ↦ ?_⟩
    · rcases hold hb with hb | rfl
      · exact .inr ⟨b, _, hb, hsame.choose_spec⟩
      · exact .inl rfl
    · rcases hold hb with hb | rfl
      · exact .inr ⟨b, hb, hj⟩
      · cases List.mem_singleton.1 hj
  | settle _ hinto =>
    refine ⟨batches, hcopy.protocol_of_same hg hp (fun k b hb ↦ ?_) fun k b hb j hj ↦ ?_⟩
    all_goals
      rw [Code.redirect, List.getElem?_modify] at hb
      obtain ⟨b', hb', rfl⟩ := Option.map_eq_some_iff.1 hb
    · refine .inr ⟨b', ?_⟩
      split
      · exact ⟨_, hb', hsame.choose_spec⟩
      · exact ⟨_, hb', hsame.choose_spec⟩
    · split at hj
      · obtain ⟨e, he, heq⟩ := hinto.2 _ hj
        exact .inl (DraftTarget.state.inj heq ▸ he)
      · exact .inr ⟨b', hb', hj⟩
  | exchange hb hbody _ hsound hnodup hcollects =>
    exact ⟨_, protocol_exchange hcopy hg hp
      (holds_exchange hg hb hbody hsound hnodup hcollects)⟩

end Move

theorem Moves.protocol (h : Moves Γ s t) (hg : s.Good) (hp : s.Protocol Γ batches) :
    ∃ batches', t.Protocol Γ batches' := by
  induction h with
  | refl => exact ⟨batches, hp⟩
  | tail hr hm ih =>
    obtain ⟨batches', hp'⟩ := ih
    exact hm.protocol (Moves.good hr hg) hp'

theorem Site.protocol_start : Site.start.Protocol Γ [] where
  holds := nofun
  apart := nofun
  ready := nofun
  plain i b hb _ := by
    match i with
    | 0 =>
      obtain rfl := Option.some.inj hb
      exact List.forall_mem_singleton.2 (HwStmt.isPlain_own _ _)
    | 1 => obtain rfl := Option.some.inj hb; nofun
    | i + 2 => exact nomatch hb
  edges i b hb j hj := by
    match i with
    | 0 =>
      obtain rfl := Option.some.inj hb
      exact .inl (DraftTarget.state.inj (List.mem_singleton.1 hj))
    | 1 =>
      obtain rfl := Option.some.inj hb
      exact nomatch List.mem_singleton.1 hj
    | i + 2 => exact nomatch hb

end Fabric
