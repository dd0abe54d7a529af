import Mathlib.Algebra.Group.Nat.Defs
import Mathlib.Data.List.Nodup
import Mathlib.Logic.Relation
import Mathlib.Order.Bounds.Defs
import Fabric.Dictionary
import Fabric.Hardware.Component

namespace Fabric

namespace Component

variable {c : Component} {s t : StateId} {n : Nat}

/-- A state leads to another one before the last state is reached. -/
def LeadsOn (c : Component) (s t : StateId) : Prop :=
  s ≠ c.finishedState ∧ c.Leads s t

/-- A path from a state to the last one, with its cycles: one for every state, and those for which the
states before the last one wait. -/
inductive Path (c : Component) : StateId → Nat → Prop
  | finished : Path c c.finishedState 1
  | step {s t : StateId} {current : State StateId} {n : Nat} (hs : s ≠ c.finishedState)
    (hcurrent : c.states[s.toNat]? = some current) (ht : t ∈ current.transition.targets)
    (h : Path c t n) : Path c s (n + 1 + current.waitCycles.toNat)

def Visits (c : Component) (s : StateId) : Prop :=
  s ≠ c.finishedState ∧ Relation.ReflTransGen c.LeadsOn 1 s

/-- What is reached before the last state does not wait for a signal, is not idle and is not on a
cycle. -/
structure Bounded (c : Component) : Prop where
  wait : ∀ s, c.Visits s → ∀ current, c.states[s.toNat]? = some current →
    current.transition.isWait = false
  idle : ∀ s, c.Visits s → s ≠ idleState
  acyclic : ∀ s, c.Visits s → ¬ Relation.TransGen c.LeadsOn s s

inductive Settles (c : Component) : StateId → Prop
  | finished : Settles c c.finishedState
  | step {s : StateId} {current : State StateId} (hs : s ≠ c.finishedState) (hidle : s ≠ idleState)
    (hcurrent : c.states[s.toNat]? = some current) (hwait : current.transition.isWait = false)
    (h : ∀ t ∈ current.transition.targets, Settles c t) : Settles c s

theorem Settles.follows (h : c.Settles s) (hs : s ≠ c.finishedState) :
    s ≠ idleState ∧ ∃ current, c.states[s.toNat]? = some current ∧
      current.transition.isWait = false ∧ ∀ t ∈ current.transition.targets, c.Settles t := by
  cases h with
  | finished => exact absurd rfl hs
  | step _ hidle hcurrent hwait h => exact ⟨hidle, _, hcurrent, hwait, h⟩

theorem Settles.leads (h : c.Settles s) (hlead : c.LeadsOn s t) : c.Settles t := by
  obtain ⟨hs, current, hcurrent, ht⟩ := hlead
  obtain ⟨-, current', hcurrent', -, hnext⟩ := h.follows hs
  obtain rfl := Option.some.inj (hcurrent.symm.trans hcurrent')
  exact hnext t ht

theorem Settles.reaches (h : c.Settles s) (hreach : Relation.ReflTransGen c.LeadsOn s t) :
    c.Settles t := by
  induction hreach with
  | refl => exact h
  | tail _ hlead ih => exact ih.leads hlead

theorem Settles.acyclic (h : c.Settles s) : ¬ Relation.TransGen c.LeadsOn s s := by
  induction h with
  | finished =>
    intro hcycle
    obtain ⟨t, hlead, -⟩ := Relation.TransGen.head'_iff.1 hcycle
    exact hlead.1 rfl
  | step hs hidle hcurrent hwait h ih =>
    intro hcycle
    obtain ⟨t, hlead, hback⟩ := Relation.TransGen.head'_iff.1 hcycle
    obtain ⟨current', hcurrent', ht⟩ := hlead.2
    obtain rfl := Option.some.inj (hcurrent.symm.trans hcurrent')
    exact ih t ht (Relation.TransGen.tail' hback hlead)

theorem bounded_of_settles (h : c.Settles 1) : c.Bounded := by
  have hvisit {s : StateId} (hs : c.Visits s) := (h.reaches hs.2).follows hs.1
  refine ⟨fun s hs current hcurrent ↦ ?_, fun s hs ↦ (hvisit hs).1,
    fun s hs ↦ (h.reaches hs.2).acyclic⟩
  obtain ⟨-, current', hcurrent', hwait, -⟩ := hvisit hs
  obtain rfl := Option.some.inj (hcurrent.symm.trans hcurrent')
  exact hwait

theorem Settles.exists_finished (h : c.Settles s) (path : Nat → StateId) (hstart : path 0 = s)
    (hpath : ∀ i, c.Leads (path i) (path (i + 1))) : ∃ i, path i = c.finishedState := by
  induction h generalizing path with
  | finished => exact ⟨0, hstart⟩
  | step hs hidle hcurrent hwait h ih =>
    obtain ⟨current, hcurrent', ht⟩ := hpath 0
    rw [hstart] at hcurrent'
    obtain rfl := Option.some.inj (hcurrent.symm.trans hcurrent')
    obtain ⟨i, hi⟩ := ih (path 1) ht (fun i ↦ path (i + 1)) rfl fun i ↦ hpath (i + 1)
    exact ⟨i + 1, hi⟩

theorem exists_mem_targets {ι : Type} (t : Transition ι) : ∃ i, i ∈ t.targets := by
  cases t <;> exact ⟨_, List.mem_cons_self⟩

theorem Settles.exists_path (h : c.Settles s) : ∃ n, c.Path s n := by
  induction h with
  | finished => exact ⟨1, .finished⟩
  | step hs hidle hcurrent hwait h ih =>
    obtain ⟨t, ht⟩ := exists_mem_targets (State.transition _)
    obtain ⟨n, hn⟩ := ih t ht
    exact ⟨_, .step hs hcurrent ht hn⟩

theorem Path.exists_states (h : c.Path s n) (hs : c.Settles s) : ∃ states : List StateId,
    states.Nodup ∧ (∀ x ∈ states, x ≠ c.finishedState ∧ Relation.ReflTransGen c.LeadsOn s x) ∧
      n ≤ states.length * 2 ^ 32 + 1 := by
  induction h with
  | finished => exact ⟨[], List.nodup_nil, by simp, by simp⟩
  | @step s t current n hne hcurrent ht _ ih =>
    have hlead : c.LeadsOn s t := ⟨hne, current, hcurrent, ht⟩
    obtain ⟨states, hnodup, hstates, hle⟩ := ih (hs.leads hlead)
    refine ⟨s :: states, List.nodup_cons.2 ⟨fun hmem ↦ ?_, hnodup⟩, ?_, ?_⟩
    · exact hs.acyclic (Relation.TransGen.head' hlead (hstates s hmem).2)
    · refine List.forall_mem_cons.2 ⟨⟨hne, .refl⟩, fun x hx ↦ ⟨(hstates x hx).1, ?_⟩⟩
      exact Relation.ReflTransGen.head hlead (hstates x hx).2
    · have hwait := current.waitCycles.toNat_lt
      rw [List.length_cons]
      omega

theorem length_le_of_nodup {states : List StateId} {bound : Nat} (hnodup : states.Nodup)
    (hlt : ∀ x ∈ states, x.toNat < bound) : states.length ≤ bound := by
  have hmap : (states.map UInt32.toNat).Nodup :=
    hnodup.map fun _ _ h ↦ UInt32.toNat_inj.1 h
  have hsub : states.map UInt32.toNat ⊆ List.range bound := by
    intro x hx
    obtain ⟨y, hy, rfl⟩ := List.mem_map.1 hx
    exact List.mem_range.2 (hlt y hy)
  simpa using hmap.length_le_of_subset hsub

theorem Path.lt (h : c.Path s n) (hs : c.Settles s) : n < 2 ^ 64 := by
  obtain ⟨states, hnodup, hstates, hle⟩ := h.exists_states hs
  have hall : (c.finishedState :: states).Nodup :=
    List.nodup_cons.2 ⟨fun hmem ↦ (hstates _ hmem).1 rfl, hnodup⟩
  have hlength := length_le_of_nodup hall fun x _ ↦ x.toNat_lt
  rw [List.length_cons] at hlength
  omega

def Longest (c : Component) (s : StateId) (n : Nat) : Prop :=
  c.Settles s ∧ IsGreatest {k | c.Path s k} n

theorem longest_finished : c.Longest c.finishedState 1 := by
  refine ⟨.finished, .finished, fun k hk ↦ ?_⟩
  cases hk with
  | finished => exact Nat.le_refl 1
  | step hs => exact absurd rfl hs

theorem longest_step {current : State StateId} {best : Nat} (hs : s ≠ c.finishedState)
    (hidle : s ≠ idleState) (hcurrent : c.states[s.toNat]? = some current)
    (hwait : current.transition.isWait = false)
    (hall : ∀ t ∈ current.transition.targets, ∃ n ≤ best, c.Longest t n)
    (hbest : ∃ t ∈ current.transition.targets, c.Longest t best) :
    c.Longest s (best + 1 + current.waitCycles.toNat) := by
  refine ⟨.step hs hidle hcurrent hwait fun t ht ↦ ?_, ?_, fun k hk ↦ ?_⟩
  · obtain ⟨n, -, hn⟩ := hall t ht
    exact hn.1
  · obtain ⟨t, ht, hlongest⟩ := hbest
    exact Path.step hs hcurrent ht hlongest.2.1
  · cases hk with
    | finished => exact absurd rfl hs
    | step _ hcurrent' ht hpath =>
      obtain rfl := Option.some.inj (hcurrent.symm.trans hcurrent')
      obtain ⟨n, hle, hn⟩ := hall _ ht
      have hmax := hn.2.2 hpath
      omega

def Known.Sound (c : Component) (known : Known) : Prop :=
  ∀ p ∈ known, c.Longest p.1 p.2

section

variable {fuel : Nat} {stack : List StateId} {known known' : Known}

def visit (c : Component) (fuel : Nat) (stack : List StateId) (best : Nat × Known)
    (next : StateId) : Option (Nat × Known) := do
  let (n, known) ← c.longestFrom fuel stack best.2 next
  return (max best.1 n, known)

theorem longestFrom_enter {current : State StateId} (hs : s ≠ c.finishedState)
    (hknown : known.lookup s = none) (hstack : s ∉ stack) (hidle : s ≠ idleState)
    (hcurrent : c.states[s.toNat]? = some current) (hwait : current.transition.isWait = false) :
    c.longestFrom (fuel + 1) stack known s =
      (current.transition.targets.foldlM (c.visit fuel (s :: stack)) (0, known)).map fun r ↦
        (r.1 + 1 + current.waitCycles.toNat,
          (s, r.1 + 1 + current.waitCycles.toNat) :: r.2) := by
  have hfree : ¬ (stack.contains s = true ∨ s = idleState) := by simp [hstack, hidle]
  rw [longestFrom, if_neg hs, hknown]
  dsimp only
  rw [if_neg hfree, hcurrent]
  dsimp only
  rw [hwait, if_neg Bool.false_ne_true]
  symm
  split
  next hfold => exact Option.map_eq_none_iff.2 hfold
  next hfold => exact Option.map_eq_some_iff.2 ⟨_, hfold, rfl⟩

/-- The search answers at a state that is not the last one if it knows the answer or enters the state. -/
theorem longestFrom_eq_some (hs : s ≠ c.finishedState)
    (h : c.longestFrom (fuel + 1) stack known s = some (n, known')) :
    known.lookup s = some n ∧ known' = known ∨
      s ≠ idleState ∧ ∃ current best known'', c.states[s.toNat]? = some current ∧
        current.transition.isWait = false ∧
        current.transition.targets.foldlM (c.visit fuel (s :: stack)) (0, known) =
          some (best, known'') ∧
        n = best + 1 + current.waitCycles.toNat ∧ known' = (s, n) :: known'' := by
  cases hknown : known.lookup s with
  | some m =>
    rw [longestFrom, if_neg hs, hknown] at h
    obtain ⟨rfl, rfl⟩ := Prod.mk.inj (Option.some.inj h)
    exact .inl ⟨rfl, rfl⟩
  | none =>
    right
    by_cases hfree : stack.contains s = true ∨ s = idleState
    · rw [longestFrom, if_neg hs, hknown] at h
      simp only [if_pos hfree, reduceCtorEq] at h
    obtain ⟨hstack, hidle⟩ := not_or.1 hfree
    rw [List.contains_iff_mem] at hstack
    cases hcurrent : c.states[s.toNat]? with
    | none =>
      rw [longestFrom, if_neg hs, hknown] at h
      simp only [if_neg hfree, hcurrent, reduceCtorEq] at h
    | some current =>
      cases hwait : current.transition.isWait with
      | true =>
        rw [longestFrom, if_neg hs, hknown] at h
        simp only [if_neg hfree, hcurrent, hwait, if_true, reduceCtorEq] at h
      | false =>
        rw [longestFrom_enter hs hknown hstack hidle hcurrent hwait, Option.map_eq_some_iff] at h
        obtain ⟨⟨best, known''⟩, hfold, heq⟩ := h
        obtain ⟨rfl, rfl⟩ := Prod.mk.inj heq
        exact ⟨hidle, current, best, known'', rfl, hwait, hfold, rfl, rfl⟩

theorem visit_eq_some {best : Nat × Known} {r : Nat × Known}
    (h : c.visit fuel stack best t = some r) :
    ∃ m, c.longestFrom fuel stack best.2 t = some (m, r.2) ∧ r.1 = max best.1 m := by
  rw [visit, Option.bind_eq_bind, Option.bind_eq_some_iff] at h
  obtain ⟨⟨m, known⟩, hfrom, heq⟩ := h
  obtain rfl := Option.some.inj heq
  exact ⟨m, hfrom, rfl⟩

theorem visits_sound (ih : ∀ known t m known', Known.Sound c known →
      c.longestFrom fuel stack known t = some (m, known') → c.Longest t m ∧ Known.Sound c known')
    (targets : List StateId) (first best : Nat) (hknown : Known.Sound c known)
    (h : targets.foldlM (c.visit fuel stack) (first, known) = some (best, known')) :
    Known.Sound c known' ∧ first ≤ best ∧ (∀ t ∈ targets, ∃ n ≤ best, c.Longest t n) ∧
      (best = first ∨ ∃ t ∈ targets, c.Longest t best) := by
  induction targets generalizing first known with
  | nil =>
    obtain ⟨rfl, rfl⟩ := Prod.mk.inj (Option.some.inj h)
    exact ⟨hknown, Nat.le_refl _, by simp, .inl rfl⟩
  | cons t rest ihrest =>
    rw [List.foldlM_cons, Option.bind_eq_bind, Option.bind_eq_some_iff] at h
    obtain ⟨⟨next, known''⟩, hvisit, hrest⟩ := h
    obtain ⟨m, hfrom, hnext⟩ := visit_eq_some hvisit
    dsimp only at hfrom hnext
    obtain ⟨hm, hknown''⟩ := ih _ _ _ _ hknown hfrom
    obtain ⟨hknown', hle, hall, hbest⟩ := ihrest next hknown'' hrest
    refine ⟨hknown', by omega, List.forall_mem_cons.2 ⟨⟨m, by omega, hm⟩, hall⟩, ?_⟩
    rcases hbest with rfl | ⟨u, hu, hlongest⟩
    · rcases Nat.le_total first m with hmax | hmax
      · refine .inr ⟨t, List.mem_cons_self, ?_⟩
        rwa [hnext, Nat.max_eq_right hmax]
      · exact .inl (by omega)
    · exact .inr ⟨u, List.mem_cons_of_mem _ hu, hlongest⟩

theorem longestFrom_sound (fuel : Nat) (stack : List StateId) (hknown : Known.Sound c known)
    (h : c.longestFrom fuel stack known s = some (n, known')) :
    c.Longest s n ∧ Known.Sound c known' := by
  induction fuel generalizing stack known s n known' with
  | zero => cases h
  | succ fuel ih =>
    by_cases hs : s = c.finishedState
    · subst hs
      rw [longestFrom, if_pos rfl] at h
      obtain ⟨rfl, rfl⟩ := Prod.mk.inj (Option.some.inj h)
      exact ⟨longest_finished, hknown⟩
    rcases longestFrom_eq_some hs h with
      ⟨hlookup, rfl⟩ | ⟨hidle, current, best, known'', hcurrent, hwait, hfold, rfl, rfl⟩
    · exact ⟨hknown _ (mem_of_lookup hlookup), hknown⟩
    · obtain ⟨hknown'', -, hall, hbest⟩ :=
        visits_sound (fun _ _ _ _ h₁ h₂ ↦ ih _ h₁ h₂) _ _ _ hknown hfold
      have hattained : ∃ t ∈ current.transition.targets, c.Longest t best := by
        rcases hbest with rfl | hattained
        · obtain ⟨t, ht⟩ := exists_mem_targets current.transition
          obtain ⟨m, hm, hlongest⟩ := hall t ht
          exact ⟨t, ht, Nat.le_zero.1 hm ▸ hlongest⟩
        · exact hattained
      have hlongest := longest_step hs hidle hcurrent hwait hall hattained
      exact ⟨hlongest, List.forall_mem_cons.2 ⟨hlongest, hknown''⟩⟩

theorem exists_visits (targets : List StateId) (best : Nat × Known)
    (h : ∀ t ∈ targets, ∀ known, ∃ r, c.longestFrom fuel stack known t = some r) :
    ∃ r, targets.foldlM (c.visit fuel stack) best = some r := by
  induction targets generalizing best with
  | nil => exact ⟨best, rfl⟩
  | cons t rest ih =>
    obtain ⟨⟨m, known⟩, hfrom⟩ := h t List.mem_cons_self best.2
    have hvisit : c.visit fuel stack best t = some (max best.1 m, known) := by
      rw [visit, hfrom]
      rfl
    rw [List.foldlM_cons, hvisit]
    exact ih _ fun u hu ↦ h u (List.mem_cons_of_mem _ hu)

def Closed (c : Component) : Prop :=
  ∀ s ∈ c.states, ∀ t ∈ s.transition.targets, t.toNat < c.states.length

structure OnWay (c : Component) (stack : List StateId) (s : StateId) : Prop where
  nodup : stack.Nodup
  valid : ∀ x ∈ stack, x.toNat < c.states.length
  leads : ∀ x ∈ stack, Relation.TransGen c.LeadsOn x s

/-- The search answers if nothing that it reaches before the last state waits, is idle or is on a
cycle. There are at most as many states on the way as there are states, so the fuel suffices. -/
theorem exists_longestFrom (hbounded : c.Bounded) (hclosed : c.Closed) (fuel : Nat)
    (stack : List StateId) (known : Known) (s : StateId) (hreach : Relation.ReflTransGen c.LeadsOn 1 s)
    (hvalid : s.toNat < c.states.length) (hway : c.OnWay stack s)
    (hfuel : c.states.length < fuel + stack.length) :
    ∃ r, c.longestFrom fuel stack known s = some r := by
  induction fuel generalizing stack known s with
  | zero =>
    have hlength := length_le_of_nodup hway.nodup hway.valid
    omega
  | succ fuel ih =>
    by_cases hs : s = c.finishedState
    · exact ⟨(1, known), by rw [longestFrom, if_pos hs]⟩
    cases hknown : known.lookup s with
    | some n => exact ⟨(n, known), by rw [longestFrom, if_neg hs, hknown]⟩
    | none =>
      have hstack : s ∉ stack := fun hmem ↦ hbounded.acyclic s ⟨hs, hreach⟩ (hway.leads s hmem)
      have hcurrent := List.getElem?_eq_getElem hvalid
      rw [longestFrom_enter hs hknown hstack (hbounded.idle s ⟨hs, hreach⟩) hcurrent
        (hbounded.wait s ⟨hs, hreach⟩ _ hcurrent)]
      refine (exists_visits _ _ fun t ht known ↦ ?_).imp' _ fun r hr ↦ by rw [hr]; rfl
      have hlead : c.LeadsOn s t := ⟨hs, _, hcurrent, ht⟩
      refine ih (s :: stack) known t (hreach.tail hlead) (hclosed _ (List.getElem_mem _) t ht) ?_ ?_
      · refine ⟨List.nodup_cons.2 ⟨hstack, hway.nodup⟩,
          List.forall_mem_cons.2 ⟨hvalid, hway.valid⟩, List.forall_mem_cons.2 ⟨.single hlead, ?_⟩⟩
        exact fun x hx ↦ (hway.leads x hx).tail hlead
      · rw [List.length_cons]
        omega

end

/-- A number of cycles is given exactly if nothing that is reached before the last state waits for a
signal, is idle or is on a cycle. Then every path ends in the last state, and the number is the largest
of their cycles; it has 64 bits. -/
theorem computeWorstCaseCycles_exact (c : Component) (hsize : 2 ≤ c.states.length)
    (hclosed : c.Closed) :
    ((∃ n, c.computeWorstCaseCycles = some n) ↔ c.Bounded) ∧
      ∀ n, c.computeWorstCaseCycles = some n →
        (∀ path : Nat → StateId, path 0 = 1 → (∀ i, c.Leads (path i) (path (i + 1))) →
          ∃ i, path i = c.finishedState) ∧
        (∀ s, Relation.ReflTransGen c.LeadsOn 1 s → ∃ k, c.Path s k) ∧
        IsGreatest {k | c.Path 1 k} n ∧ n < 2 ^ 64 := by
  have hrun : c.computeWorstCaseCycles =
      (c.longestFrom (c.states.length + 1) [] [] 1).map Prod.fst := if_neg (by omega)
  have hright {n : Nat} (h : c.computeWorstCaseCycles = some n) : c.Longest 1 n := by
    rw [hrun, Option.map_eq_some_iff] at h
    obtain ⟨⟨m, known⟩, hfrom, rfl⟩ := h
    exact (longestFrom_sound _ _ (by simp [Known.Sound]) hfrom).1
  refine ⟨⟨fun ⟨n, h⟩ ↦ bounded_of_settles (hright h).1, fun hbounded ↦ ?_⟩, fun n h ↦ ?_⟩
  · have hway : c.OnWay [] 1 := ⟨List.nodup_nil, by simp, by simp⟩
    obtain ⟨r, hr⟩ := exists_longestFrom hbounded hclosed (c.states.length + 1) [] [] 1 .refl
      (show 1 < c.states.length by omega) hway (by simp)
    exact ⟨r.1, by rw [hrun, hr]; rfl⟩
  · obtain ⟨hsettles, hgreatest⟩ := hright h
    exact ⟨hsettles.exists_finished, fun s hs ↦ (hsettles.reaches hs).exists_path, hgreatest,
      hgreatest.1.lt hsettles⟩

def meeting : Component :=
  let state id waitCycles transition : State StateId := ⟨id, "", [], waitCycles, transition⟩
  { name := "M.f", parameters := [], returnType := none, declarations := [], invocations := []
    states := [state 0 0 (.waitFor (.bool true) 1), state 1 0 (.branch (.bool true) 2 3),
      state 2 7 (.goto 3), state 3 4 (.goto 4), state 4 0 (.goto 0)]
    instanceCount := 1, worstCaseCycles := none }

theorem meeting_exact :
    2 ≤ meeting.states.length ∧ meeting.Closed ∧ meeting.computeWorstCaseCycles = some 15 ∧
      meeting.Bounded ∧ meeting.Path 1 15 := by
  have hsize : 2 ≤ meeting.states.length := by decide
  have hclosed : meeting.Closed := by simp [Closed, meeting, Transition.targets]
  have hcycles : meeting.computeWorstCaseCycles = some 15 := by decide +kernel
  have h := computeWorstCaseCycles_exact meeting hsize hclosed
  exact ⟨hsize, hclosed, hcycles, h.1.1 ⟨15, hcycles⟩, (h.2 15 hcycles).2.2.1.1⟩

end Component

end Fabric
