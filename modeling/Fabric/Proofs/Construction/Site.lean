import Fabric.Lowering.Handshake
import Fabric.Proofs.Typing.Basic
import Mathlib.Data.Multiset.UnionInter
import Mathlib.Logic.Relation

/-!
How a state machine can grow. A site is a machine under construction: its code, the state that is
open, the states whose exits are still loose, and the states that transitions may lead to. A move is
one step of the construction. Main statement: a state that is neither open nor loose is never changed
again.
-/

namespace Fabric

/-- A state without its label and its wait cycles. -/
structure Block where
  id : DraftTarget
  body : List HwStmt
  transition : Transition DraftTarget

def State.block (s : State DraftTarget) : Block := ⟨s.id, s.body, s.transition⟩

namespace Block

def fresh (index : Nat) : Block := ⟨.state index, [], .goto .finished⟩

end Block

abbrev Code := List Block

namespace Code

def redirect (code : Code) (i : Nat) (t : Transition DraftTarget) : Code :=
  code.modify i fun b ↦ { b with transition := t }

def extend (code : Code) (i : Nat) (s : HwStmt) : Code :=
  code.modify i fun b ↦ { b with body := b.body ++ [s] }

variable (code : Code) (i j : Nat) (s : HwStmt) (t : Transition DraftTarget) (b : Block)

@[simp]
theorem length_redirect : (code.redirect i t).length = code.length := by simp [redirect]

@[simp]
theorem length_extend : (code.extend i s).length = code.length := by simp [extend]

variable {i j} in
theorem getElem?_redirect_ne (h : i ≠ j) : (code.redirect i t)[j]? = code[j]? :=
  List.getElem?_modify_ne _ _ h

variable {i j} in
theorem getElem?_extend_ne (h : i ≠ j) : (code.extend i s)[j]? = code[j]? :=
  List.getElem?_modify_ne _ _ h

theorem getElem?_redirect_eq :
    (code.redirect i t)[i]? = code[i]?.map fun b ↦ { b with transition := t } :=
  List.getElem?_modify_eq _ _ _

theorem getElem?_extend_eq :
    (code.extend i s)[i]? = code[i]?.map fun b ↦ { b with body := b.body ++ [s] } :=
  List.getElem?_modify_eq _ _ _

end Code

/-- The slot of a call is there, and its values fit the pins of the invoked member. -/
structure Invocation.Sound (Γ : Interface) (c : Invocation) : Prop where
  slot : Γ.HasSlot c.target c.slot
  arguments : ∀ a ∈ c.arguments, ∃ type,
    Γ.program.HasPin c.target (.parameter a.1) type ∧ a.2.HasType Γ type
  result : ∃ h ∈ Γ.program.tree.handles, Γ.program.tree.memberFullName h = c.target ∧
    (Γ.program.tree.method h).returnType.resultHardware Γ.program.arrays
      (returnArrayKey c.target) c.target = .ok c.returnType

/-- Statements that read the results of calls and drop their start signals, call by call. -/
inductive Collects (Γ : Interface) : List Invocation → List HwStmt → Prop
  | nil : Collects Γ [] []
  | value {c : Invocation} {calls : List Invocation} {body : List HwStmt} {name : String}
      {type : HwType} :
      c.returnType = some type → Γ.Declares name type → Collects Γ calls body →
      Collects Γ (c :: calls) (.setVariable name (.signal (c.pin .result))
        :: .drive (c.pin .started) (.bool false) :: body)
  | void {c : Invocation} {calls : List Invocation} {body : List HwStmt} :
      c.returnType = none → Collects Γ calls body →
      Collects Γ (c :: calls) (.drive (c.pin .started) (.bool false) :: body)

def Invocation.place (c : Invocation) : String × UInt32 := (c.target, c.slot)

def Code.exchange (calls : List Invocation) (body : List HwStmt) (n : Nat) : Code :=
  [⟨.state n, calls.flatMap Invocation.startBody, .goto (.state (n + 1))⟩,
    ⟨.state (n + 1), [], .waitFor (.all (calls.map Invocation.finished)) (.state (n + 2))⟩,
    ⟨.state (n + 2), body, .goto .finished⟩]

def Invocation.idle (calls : List Invocation) : HwExpr :=
  .all (calls.map fun c ↦ .unary .not c.finished)

def Stmt.Grouped (p : Program) (s : Stmt) : Prop :=
  ∀ t ∈ s.nodes, ∀ e ∈ t.exprs, ∀ c ∈ e.nodes, c.isCall → p.callGroup c.id = some t.id

def Program.CallsGrouped (p : Program) : Prop :=
  ∀ h ∈ p.tree.handles, ∀ s, (p.tree.method h).body = some s → s.Grouped p

/-- A machine under construction. -/
structure Site where
  code : Code
  /-- The state that is open, unless the site is closed. -/
  current : Nat
  isClosed : Bool
  /-- The states whose transition is still to be set. -/
  loose : Multiset Nat
  /-- The states in which an expanded call returns; such a state may be opened again. -/
  returns : Multiset Nat
  /-- The states to which transitions may be set. -/
  entries : Set Nat

def Transition.Into (entries : Set Nat) (t : Transition DraftTarget) : Prop :=
  t.isWait = false ∧ ∀ x ∈ t.targets, ∃ e ∈ entries, x = .state e

variable (Γ : Interface)

inductive Move : Site → Site → Prop
  | push {code i L R E} {s : HwStmt} : s.Typed Γ → s.IsPlain →
      Move ⟨code, i, false, L, R, E⟩ ⟨code.extend i s, i, false, L, R, E⟩
  /-- The open state is left, and its exit is set later. -/
  | suspend {code i L R E} : Move ⟨code, i, false, L, R, E⟩ ⟨code, i, true, i ::ₘ L, R, E⟩
  /-- The open state is left for the last one. -/
  | leave {code i L R E} : Move ⟨code, i, false, L, R, E⟩ ⟨code, i, true, L, R, E⟩
  /-- The open state is left for what follows an expanded call. -/
  | ret {code i L R E} : Move ⟨code, i, false, L, R, E⟩ ⟨code, i, true, L, i ::ₘ R, E⟩
  | resume {code i L R E} : Move ⟨code, i, true, L, i ::ₘ R, E⟩ ⟨code, i, false, L, R, E⟩
  | release {code i j closed L R E} :
      Move ⟨code, i, closed, L, j ::ₘ R, E⟩ ⟨code, i, closed, j ::ₘ L, R, E⟩
  | fork {code i L R E} : Move ⟨code, i, true, L, R, E⟩
      ⟨code ++ [Block.fresh code.length], code.length, false, L, R, insert code.length E⟩
  | settle {code i j closed L R E} {t : Transition DraftTarget} : t.Typed Γ → t.Into E →
      Move ⟨code, i, closed, j ::ₘ L, R, E⟩ ⟨code.redirect j t, i, closed, L, R, E⟩
  /-- A batch of calls. -/
  | exchange {code i L R E} {b : Block} {calls : List Invocation} {body : List HwStmt} :
      code[i]? = some b → b.body = [] → calls ≠ [] → (∀ c ∈ calls, c.Sound Γ) →
      (Γ.program.CallsGrouped → (calls.map Invocation.place).Nodup) → Collects Γ calls body →
      Move ⟨code, i, false, L, R, E⟩
        ⟨code.redirect i (.waitFor (Invocation.idle calls) (.state code.length))
          ++ .exchange calls body code.length, code.length + 2, false, L, R, E⟩

/-- Several steps of a construction. -/
abbrev Moves : Site → Site → Prop := Relation.ReflTransGen (Move Γ)

/-- A state whose transition is still to be set: it leads to the last state for now, and if it is
empty, transitions may lead to it. -/
def Code.Dangling (code : Code) (entries : Set Nat) (i : Nat) : Prop :=
  ∃ b, code[i]? = some b ∧ b.transition = .goto .finished ∧ (b.body = [] → i ∈ entries)

namespace Code.Dangling

variable {code : Code} {entries : Set Nat} {i j : Nat}

theorem lt (h : code.Dangling entries i) : i < code.length := by
  obtain ⟨b, hb, -⟩ := h
  exact (List.getElem?_eq_some_iff.1 hb).1

theorem extend (h : code.Dangling entries i) (j : Nat) (s : HwStmt) :
    (code.extend j s).Dangling entries i := by
  obtain ⟨b, hb, ht, he⟩ := h
  rcases eq_or_ne j i with rfl | hne
  · have hb' := getElem?_extend_eq code j s
    rw [hb, Option.map_some] at hb'
    exact ⟨_, hb', ht, fun hbody ↦ absurd hbody (by simp)⟩
  · exact ⟨b, by rw [getElem?_extend_ne _ _ hne, hb], ht, he⟩

theorem redirect (h : code.Dangling entries i) (hne : j ≠ i) (t : Transition DraftTarget) :
    (code.redirect j t).Dangling entries i := by
  obtain ⟨b, hb, ht, he⟩ := h
  exact ⟨b, by rw [getElem?_redirect_ne _ _ hne, hb], ht, he⟩

theorem append (h : code.Dangling entries i) (more : Code) : (code ++ more).Dangling entries i := by
  obtain ⟨b, hb, ht, he⟩ := h
  refine ⟨b, ?_, ht, he⟩
  rw [List.getElem?_append_left (List.getElem?_eq_some_iff.1 hb).1, hb]

theorem mono (h : code.Dangling entries i) {entries' : Set Nat} (hsub : entries ⊆ entries') :
    code.Dangling entries' i := by
  obtain ⟨b, hb, ht, he⟩ := h
  exact ⟨b, hb, ht, fun hbody ↦ hsub (he hbody)⟩

end Code.Dangling

def Code.Numbered (code : Code) : Prop :=
  ∀ (i : Nat) (b : Block), code[i]? = some b → b.id = .state i

namespace Code.Numbered

variable {code : Code}

theorem modify (h : code.Numbered) (j : Nat) {f : Block → Block} (hf : ∀ b, (f b).id = b.id) :
    Numbered (code.modify j f) := by
  intro i b hb
  rw [List.getElem?_modify] at hb
  obtain ⟨b', hb', rfl⟩ := Option.map_eq_some_iff.1 hb
  split
  · rw [hf, h i b' hb']
  · exact h i b' hb'

theorem append (h : code.Numbered) {more : Code}
    (hmore : ∀ (k : Nat) (b : Block), more[k]? = some b → b.id = .state (code.length + k)) :
    Numbered (code ++ more) := by
  intro i b hb
  rcases lt_or_ge i code.length with hi | hi
  · rw [List.getElem?_append_left hi] at hb
    exact h i b hb
  · rw [List.getElem?_append_right hi] at hb
    rw [hmore _ b hb, Nat.add_sub_cancel' hi]

end Code.Numbered

theorem Code.dangling_fresh (code : Code) (entries : Set Nat) :
    Code.Dangling (code ++ [Block.fresh code.length]) (insert code.length entries) code.length := by
  refine ⟨.fresh code.length, ?_, rfl, fun _ ↦ Set.mem_insert _ _⟩
  simp

namespace Site

structure Good (s : Site) : Prop where
  current_pos : 0 < s.current
  current_lt : s.current < s.code.length
  ids : s.code.Numbered
  entries : ∀ e ∈ s.entries, 0 < e ∧ e < s.code.length
  nodup : (s.loose + s.returns).Nodup
  pending : ∀ i ∈ s.loose + s.returns, 0 < i ∧ s.code.Dangling s.entries i
  opened : s.isClosed = false →
    s.current ∉ s.loose + s.returns ∧ s.code.Dangling s.entries s.current

def Fixed (s : Site) (i : Nat) : Prop :=
  i ∉ s.loose + s.returns ∧ (s.isClosed = false → i ≠ s.current)

end Site

theorem Code.id_exchange {calls : List Invocation} {body : List HwStmt} {n k : Nat}
    {b : Block} (h : (Code.exchange calls body n)[k]? = some b) : b.id = .state (n + k) := by
  unfold Code.exchange at h
  match k with
  | 0 | 1 | 2 => simp at h; exact h ▸ rfl
  | k + 3 => simp at h

theorem Collects.ne_nil {Γ : Interface} {calls : List Invocation} {body : List HwStmt}
    (h : Collects Γ calls body) (hne : calls ≠ []) : body ≠ [] := by
  cases h with
  | nil => exact absurd rfl hne
  | value => exact List.cons_ne_nil _ _
  | void => exact List.cons_ne_nil _ _

namespace Move

variable {Γ} {s t : Site}

theorem good (h : Move Γ s t) (hs : s.Good) : t.Good := by
  obtain ⟨hpos, hlt, hids, hentries, hnodup, hpending, hopened⟩ := hs
  cases h with
  | push =>
    refine ⟨hpos, by simpa using hlt, hids.modify _ fun _ ↦ rfl, by simpa using hentries, hnodup,
      fun j hj ↦ ?_, fun ho ↦ ?_⟩
    · exact ⟨(hpending j hj).1, (hpending j hj).2.extend _ _⟩
    · exact ⟨(hopened ho).1, (hopened ho).2.extend _ _⟩
  | suspend =>
    obtain ⟨hmem, hdangling⟩ := hopened rfl
    refine ⟨hpos, hlt, hids, hentries, ?_, fun j hj ↦ ?_, nofun⟩
    · rw [Multiset.cons_add, Multiset.nodup_cons]
      exact ⟨hmem, hnodup⟩
    · rw [Multiset.cons_add, Multiset.mem_cons] at hj
      rcases hj with rfl | hj
      · exact ⟨hpos, hdangling⟩
      · exact hpending j hj
  | leave => exact ⟨hpos, hlt, hids, hentries, hnodup, hpending, nofun⟩
  | ret =>
    obtain ⟨hmem, hdangling⟩ := hopened rfl
    refine ⟨hpos, hlt, hids, hentries, ?_, fun j hj ↦ ?_, nofun⟩
    · rw [Multiset.add_cons, Multiset.nodup_cons]
      exact ⟨hmem, hnodup⟩
    · rw [Multiset.add_cons, Multiset.mem_cons] at hj
      rcases hj with rfl | hj
      · exact ⟨hpos, hdangling⟩
      · exact hpending j hj
  | resume =>
    rw [Multiset.add_cons] at hnodup hpending
    obtain ⟨hmem, hnodup⟩ := Multiset.nodup_cons.1 hnodup
    refine ⟨hpos, hlt, hids, hentries, hnodup, fun j hj ↦ ?_, fun _ ↦ ⟨hmem, ?_⟩⟩
    · exact hpending j (Multiset.mem_cons_of_mem hj)
    · exact (hpending _ (Multiset.mem_cons_self _ _)).2
  | release =>
    rw [Multiset.add_cons, ← Multiset.cons_add] at hnodup hpending hopened
    exact ⟨hpos, hlt, hids, hentries, hnodup, hpending, hopened⟩
  | @fork code i L R E =>
    refine ⟨hpos.trans hlt, by simp, hids.append ?_, fun e he ↦ ?_, hnodup, fun j hj ↦ ?_,
      fun _ ↦ ⟨fun hmem ↦ ?_, Code.dangling_fresh _ _⟩⟩
    · intro k b hb
      match k with
      | 0 => simp at hb; exact hb ▸ rfl
      | k + 1 => simp at hb
    · rcases he with rfl | he
      · exact ⟨hpos.trans hlt, by simp⟩
      · obtain ⟨he0, hlen⟩ := hentries e he
        refine ⟨he0, hlen.trans ?_⟩
        simp
    · obtain ⟨hj0, hj⟩ := hpending j hj
      exact ⟨hj0, (hj.append _).mono (Set.subset_insert _ _)⟩
    · exact absurd (hpending _ hmem).2.lt (lt_irrefl _)
  | @settle code i k closed L R E t =>
    rw [Multiset.cons_add] at hnodup hpending hopened
    obtain ⟨hmem, hnodup⟩ := Multiset.nodup_cons.1 hnodup
    refine ⟨hpos, by simpa using hlt, hids.modify _ fun _ ↦ rfl, by simpa using hentries, hnodup,
      fun j hj ↦ ?_, fun ho ↦ ?_⟩
    · obtain ⟨hj0, hd⟩ := hpending j (Multiset.mem_cons_of_mem hj)
      have hne : k ≠ j := fun he ↦ hmem (he ▸ hj)
      exact ⟨hj0, hd.redirect hne _⟩
    · obtain ⟨hout, hd⟩ := hopened ho
      rw [Multiset.mem_cons, not_or] at hout
      exact ⟨hout.2, hd.redirect (Ne.symm hout.1) _⟩
  | @exchange code i L R E b calls body _ _ hne _ _ hcollects =>
    refine ⟨by simp, by simp [Code.exchange], ?_, fun e he ↦ ?_, hnodup, fun j hj ↦ ?_,
      fun _ ↦ ⟨fun hmem ↦ ?_, ?_⟩⟩
    · have hred : (code.redirect i (.waitFor (Invocation.idle calls)
          (.state code.length))).Numbered := hids.modify i fun _ ↦ rfl
      refine hred.append fun k b hb ↦ ?_
      rw [Code.id_exchange hb, Code.length_redirect]
    · obtain ⟨he0, hlen⟩ := hentries e he
      refine ⟨he0, hlen.trans ?_⟩
      simp [Code.exchange]
    · obtain ⟨hj0, hd⟩ := hpending j hj
      have hne : i ≠ j := fun he ↦ (hopened rfl).1 (he ▸ hj)
      exact ⟨hj0, (hd.redirect hne _).append _⟩
    · exact absurd (hpending _ hmem).2.lt (by simp)
    · refine ⟨⟨.state (code.length + 2), body, .goto .finished⟩, ?_, rfl, fun hbody ↦ ?_⟩
      · rw [List.getElem?_append_right (by simp)]
        simp [Code.exchange]
      · exact absurd hbody (hcollects.ne_nil hne)

/-- A state that is neither open nor loose is not changed. -/
theorem fixed (h : Move Γ s t) (hs : s.Good) {i : Nat} (hi : i < s.code.length) (hf : s.Fixed i) :
    t.Fixed i ∧ t.code[i]? = s.code[i]? := by
  obtain ⟨hmem, hne⟩ := hf
  cases h with
  | push => exact ⟨⟨hmem, hne⟩, Code.getElem?_extend_ne _ _ (hne rfl).symm⟩
  | suspend =>
    refine ⟨⟨?_, nofun⟩, rfl⟩
    rw [Multiset.cons_add, Multiset.mem_cons, not_or]
    exact ⟨hne rfl, hmem⟩
  | leave => exact ⟨⟨hmem, nofun⟩, rfl⟩
  | ret =>
    refine ⟨⟨?_, nofun⟩, rfl⟩
    rw [Multiset.add_cons, Multiset.mem_cons, not_or]
    exact ⟨hne rfl, hmem⟩
  | resume =>
    rw [Multiset.add_cons, Multiset.mem_cons, not_or] at hmem
    exact ⟨⟨hmem.2, fun _ ↦ hmem.1⟩, rfl⟩
  | release =>
    rw [Multiset.add_cons, ← Multiset.cons_add] at hmem
    exact ⟨⟨hmem, hne⟩, rfl⟩
  | fork => exact ⟨⟨hmem, fun _ ↦ Nat.ne_of_lt hi⟩, List.getElem?_append_left hi⟩
  | settle =>
    rw [Multiset.cons_add, Multiset.mem_cons, not_or] at hmem
    exact ⟨⟨hmem.2, hne⟩, Code.getElem?_redirect_ne _ _ (Ne.symm hmem.1)⟩
  | exchange =>
    refine ⟨⟨hmem, fun _ ↦ Nat.ne_of_lt (Nat.lt_add_right 2 hi)⟩, ?_⟩
    rw [List.getElem?_append_left (by simpa using hi),
      Code.getElem?_redirect_ne _ _ (hne rfl).symm]

/-- What a state does is only added to, and no start signal of a slot is among the additions. -/
theorem body (h : Move Γ s t) {i : Nat} {b : Block} (hb : s.code[i]? = some b) :
    ∃ b' rest, t.code[i]? = some b' ∧ b'.body = b.body ++ rest ∧ ∀ x ∈ rest, x.IsPlain := by
  have hi := (List.getElem?_eq_some_iff.1 hb).1
  have hsame (b' : Block) (h : b'.body = b.body) : ∃ rest, b'.body = b.body ++ rest ∧
      ∀ x ∈ rest, x.IsPlain := ⟨[], by rw [h, List.append_nil], nofun⟩
  cases h with
  | @push code j _ _ _ s _ hplain =>
    rcases eq_or_ne j i with rfl | hne
    · refine ⟨{ b with body := b.body ++ [s] }, [s], ?_, rfl, List.forall_mem_singleton.2 hplain⟩
      simp [Code.getElem?_extend_eq, hb]
    · exact ⟨b, _, by rw [Code.getElem?_extend_ne _ _ hne, hb], (hsame b rfl).choose_spec⟩
  | suspend | leave | ret | resume | release => exact ⟨b, _, hb, (hsame b rfl).choose_spec⟩
  | fork => exact ⟨b, _, by rw [List.getElem?_append_left hi, hb], (hsame b rfl).choose_spec⟩
  | @settle code _ j _ _ _ _ t =>
    rcases eq_or_ne j i with rfl | hne
    · refine ⟨{ b with transition := t }, _, ?_, (hsame _ rfl).choose_spec⟩
      simp [Code.getElem?_redirect_eq, hb]
    · exact ⟨b, _, by rw [Code.getElem?_redirect_ne _ _ hne, hb], (hsame b rfl).choose_spec⟩
  | @exchange code j _ _ _ _ calls =>
    rw [List.getElem?_append_left (by simpa using hi)]
    rcases eq_or_ne j i with rfl | hne
    · refine ⟨{ b with transition := .waitFor (Invocation.idle calls) (.state code.length) }, _, ?_,
        (hsame _ rfl).choose_spec⟩
      simp [Code.getElem?_redirect_eq, hb]
    · exact ⟨b, _, by rw [Code.getElem?_redirect_ne _ _ hne, hb], (hsame b rfl).choose_spec⟩

/-- A loose state is not changed but for its transition. -/
theorem loose (h : Move Γ s t) (hs : s.Good) {i : Nat} (hi : i ∈ s.loose) {b : Block}
    (hb : s.code[i]? = some b) :
    (i ∈ t.loose ∨ t.Fixed i) ∧ ∃ b', t.code[i]? = some b' ∧ b'.body = b.body := by
  have hlt := (List.getElem?_eq_some_iff.1 hb).1
  have hsum : i ∈ s.loose + s.returns := Multiset.mem_add.2 (.inl hi)
  cases h with
  | @push code j _ _ _ s =>
    have hne : j ≠ i := fun he ↦ (hs.opened rfl).1 (he ▸ hsum)
    exact ⟨.inl hi, b, by rw [Code.getElem?_extend_ne _ _ hne, hb], rfl⟩
  | suspend => exact ⟨.inl (Multiset.mem_cons_of_mem hi), b, hb, rfl⟩
  | leave | ret | resume => exact ⟨.inl hi, b, hb, rfl⟩
  | release => exact ⟨.inl (Multiset.mem_cons_of_mem hi), b, hb, rfl⟩
  | fork => exact ⟨.inl hi, b, by rw [List.getElem?_append_left hlt, hb], rfl⟩
  | @settle code k j closed L R _ t =>
    rcases eq_or_ne j i with rfl | hne
    · have hnodup := hs.nodup
      rw [Multiset.cons_add] at hnodup
      refine ⟨.inr ⟨(Multiset.nodup_cons.1 hnodup).1, fun ho he ↦ ?_⟩,
        { b with transition := t }, by simp [Code.getElem?_redirect_eq, hb], rfl⟩
      exact (hs.opened ho).1 (he ▸ hsum)
    · refine ⟨.inl ?_, b, by rw [Code.getElem?_redirect_ne _ _ hne, hb], rfl⟩
      exact (Multiset.mem_cons.1 hi).resolve_left (Ne.symm hne)
  | @exchange code j =>
    have hne : j ≠ i := fun he ↦ (hs.opened rfl).1 (he ▸ hsum)
    refine ⟨.inl hi, b, ?_, rfl⟩
    rw [List.getElem?_append_left (by simpa using hlt), Code.getElem?_redirect_ne _ _ hne, hb]

theorem entries (h : Move Γ s t) : s.entries ⊆ t.entries := by
  cases h with
  | fork => exact Set.subset_insert _ _
  | _ => exact Set.Subset.refl _

end Move

namespace Moves

variable {Γ} {s t : Site}

theorem entries (h : Moves Γ s t) : s.entries ⊆ t.entries := by
  induction h with
  | refl => exact Set.Subset.refl _
  | tail _ hm ih => exact Set.Subset.trans ih hm.entries

theorem good (h : Moves Γ s t) (hs : s.Good) : t.Good := by
  induction h with
  | refl => exact hs
  | tail _ hm ih => exact hm.good ih

theorem body (h : Moves Γ s t) {i : Nat} {b : Block} (hb : s.code[i]? = some b) :
    ∃ b' rest, t.code[i]? = some b' ∧ b'.body = b.body ++ rest ∧ ∀ x ∈ rest, x.IsPlain := by
  induction h with
  | refl => exact ⟨b, [], hb, (List.append_nil _).symm, nofun⟩
  | tail _ hm ih =>
    obtain ⟨b', rest, hb', hbody, hplain⟩ := ih
    obtain ⟨b'', rest', hb'', hbody', hplain'⟩ := hm.body hb'
    refine ⟨b'', rest ++ rest', hb'', ?_, List.forall_mem_append.2 ⟨hplain, hplain'⟩⟩
    rw [hbody', hbody, List.append_assoc]

theorem length_le (h : Moves Γ s t) : s.code.length ≤ t.code.length := by
  by_contra hlt
  have hlast : t.code.length < s.code.length := by omega
  obtain ⟨b', rest, hb', -⟩ := h.body (List.getElem?_eq_getElem hlast)
  exact absurd (List.getElem?_eq_some_iff.1 hb').1 (lt_irrefl _)

theorem fixed (h : Moves Γ s t) (hs : s.Good) {i : Nat} (hi : i < s.code.length)
    (hf : s.Fixed i) : t.Fixed i ∧ t.code[i]? = s.code[i]? := by
  induction h with
  | refl => exact ⟨hf, rfl⟩
  | tail hr hm ih =>
    obtain ⟨hf', heq⟩ := ih
    obtain ⟨hf'', heq'⟩ := hm.fixed (good hr hs) (hi.trans_le (length_le hr)) hf'
    exact ⟨hf'', heq'.trans heq⟩

/-- A loose state is not changed but for its transition, and then it stays as it is. -/
theorem looseOrFixed (h : Moves Γ s t) (hs : s.Good) {i : Nat} (hi : i ∈ s.loose) {b : Block}
    (hb : s.code[i]? = some b) :
    (i ∈ t.loose ∨ t.Fixed i) ∧ ∃ b', t.code[i]? = some b' ∧ b'.body = b.body := by
  induction h with
  | refl => exact ⟨.inl hi, b, hb, rfl⟩
  | @tail u v hr hm ih =>
    obtain ⟨hu, b', hb', hbody⟩ := ih
    rcases hu with hu | hu
    · obtain ⟨hv, b'', hb'', hbody'⟩ := hm.loose (good hr hs) hu hb'
      exact ⟨hv, b'', hb'', hbody'.trans hbody⟩
    · obtain ⟨hv, heq⟩ := hm.fixed (good hr hs) (List.getElem?_eq_some_iff.1 hb').1 hu
      exact ⟨.inr hv, b', heq.trans hb', hbody⟩

end Moves

end Fabric
