import Fabric.Proofs.Construction.Site
import Fabric.Proofs.Machine.Basic

namespace Fabric

variable {V ι : Type} {I : Interpretation V} {M : Machine ι}

/-- The states of a machine are those of some code under new names. -/
structure Machine.Realizes (M : Machine ι) (name : DraftTarget → ι) (code : Code) : Prop where
  state : ∀ {i : Nat} {b : Block}, code[i]? = some b → ∃ s, M (name (.state i)) = some s ∧
    s.body = b.body ∧ s.transition = b.transition.map name
  finished : ∀ i < code.length, name (.state i) ≠ name .finished

namespace Execution

variable (x : Execution I M) (name : DraftTarget → ι)

def Enters (t : Nat) (target : DraftTarget) (m : Memory V) : Prop :=
  x.config t = ⟨name target, 0, m⟩

def At (t i : Nat) (done : List HwStmt) (m : Memory V) : Prop :=
  ∃ m₀, x.Enters name t (.state i) m₀ ∧ HwStmt.execAll I (x.inputs t) done m₀ = m

/-- From one cycle on until before another one the last state is not reached. -/
structure Works (t t' : Nat) : Prop where
  le : t ≤ t'
  ne : ∀ k, t ≤ k → k < t' → (x.config k).state ≠ name .finished

variable {x name} {t t' t'' i : Nat} {done : List HwStmt} {m : Memory V}

theorem Works.refl (t : Nat) : x.Works name t t := ⟨Nat.le_refl t, fun _ h h' ↦ by omega⟩

theorem Works.trans (h : x.Works name t t') (h' : x.Works name t' t'') : x.Works name t t'' := by
  refine ⟨h.le.trans h'.le, fun k hk hk' ↦ ?_⟩
  rcases Nat.lt_or_ge k t' with hlt | hge
  · exact h.ne k hk hlt
  · exact h'.ne k hge hk'

theorem Enters.at (h : x.Enters name t (.state i) m) : x.At name t i [] m := ⟨m, h, rfl⟩

theorem At.enters (h : x.At name t i [] m) : x.Enters name t (.state i) m := by
  obtain ⟨m₀, h₀, rfl⟩ := h
  exact h₀

theorem At.append (h : x.At name t i done m) (more : List HwStmt) :
    x.At name t i (done ++ more) (HwStmt.execAll I (x.inputs t) more m) := by
  obtain ⟨m₀, h₀, rfl⟩ := h
  exact ⟨m₀, h₀, HwStmt.execAll_append I _ _ _ _⟩

theorem At.waits {s : State ι} (h : x.At name t i s.body m) (hs : M (name (.state i)) = some s)
    (w : Nat) (hw : w ≤ s.waitCycles.toNat) :
    ∃ m', x.config (t + w) = ⟨name (.state i), w, m'⟩ ∧
      (if w = 0 then HwStmt.execAll I (x.inputs (t + w)) s.body m' else m') = m := by
  induction w with
  | zero =>
    obtain ⟨m₀, h₀, hm⟩ := h
    exact ⟨m₀, h₀, hm⟩
  | succ w ih =>
    obtain ⟨m', hconfig, hm⟩ := ih (by omega)
    refine ⟨m, ?_, rfl⟩
    rw [← Nat.add_assoc, x.step, hconfig, Machine.tick, hs]
    dsimp only
    rw [if_pos (by omega), hm]

/-- A state that has run its body is left for the state that its transition names, with what it has
computed. -/
theorem At.passes {code : Code} (hM : M.Realizes name code) {b : Block} (hb : code[i]? = some b)
    (h : x.At name t i b.body m) : ∃ t' > t, x.Works name t t' ∧
      x.Enters name t' (b.transition.next
        (fun e ↦ I.truth (e.eval I (x.inputs (t' - 1)) m.values)) (.state i)) m ∧
      ∀ k, t < k → k ≤ t' → (x.config k).memory = m := by
  obtain ⟨s, hs, hbody, htransition⟩ := hM.state hb
  rw [← hbody] at h
  have hwaits := h.waits hs
  have henters : x.Enters name (t + s.waitCycles.toNat + 1) (b.transition.next (fun e ↦
      I.truth (e.eval I (x.inputs (t + s.waitCycles.toNat + 1 - 1)) m.values)) (.state i)) m := by
    obtain ⟨m', hconfig, hm⟩ := hwaits s.waitCycles.toNat (Nat.le_refl _)
    unfold Enters
    rw [x.step, hconfig, Machine.tick, hs]
    dsimp only
    rw [if_neg (Nat.lt_irrefl _), hm, htransition, Transition.next_map, Nat.add_sub_cancel]
  refine ⟨t + s.waitCycles.toNat + 1, by omega, ⟨by omega, fun k hk hk' ↦ ?_⟩, henters,
    fun k hk hk' ↦ ?_⟩
  · obtain ⟨m', hconfig, -⟩ := hwaits (k - t) (by omega)
    rw [Nat.add_sub_cancel' hk] at hconfig
    rw [hconfig]
    exact hM.finished i (List.getElem?_eq_some_iff.1 hb).1
  · rcases Nat.lt_or_eq_of_le hk' with hlt | rfl
    · obtain ⟨m', hconfig, hm⟩ := hwaits (k - t) (by omega)
      rw [if_neg (by omega)] at hm
      rw [Nat.add_sub_cancel' hk.le] at hconfig
      rw [hconfig]
      exact hm
    · exact congrArg Configuration.memory henters

theorem At.leaves {code : Code} (hM : M.Realizes name code) {b : Block} (hb : code[i]? = some b)
    (h : x.At name t i b.body m) : ∃ t' > t, x.Works name t t' ∧
      x.Enters name t' (b.transition.next
        (fun e ↦ I.truth (e.eval I (x.inputs (t' - 1)) m.values)) (.state i)) m := by
  obtain ⟨t', hlt, hworks, henters, -⟩ := h.passes hM hb
  exact ⟨t', hlt, hworks, henters⟩

theorem At.goto {code : Code} (hM : M.Realizes name code) {b : Block} (hb : code[i]? = some b)
    {target : DraftTarget} (ht : b.transition = .goto target) (h : x.At name t i b.body m) :
    ∃ t' > t, x.Works name t t' ∧ x.Enters name t' target m := by
  obtain ⟨t', hlt, hworks, henters⟩ := h.leaves hM hb
  rw [ht] at henters
  exact ⟨t', hlt, hworks, henters⟩

end Execution

end Fabric
