import Fabric.Proofs.Construction.Follow
import Fabric.Proofs.Construction.Stmt
import Fabric.Proofs.Source.Expr

namespace Fabric

variable {V ι : Type} {I : Interpretation V} {M : Machine ι}

def Memory.store (m : Memory V) : Store V := ⟨m.values, m.driven (.own .result)⟩

def MemberPlace.target (S : MemberPlace) : HwTarget :=
  match S.returnVariable with
  | some name => .variable name
  | none => .signal (.own .result)

structure View (I : Interpretation V) (S : MemberPlace) where
  shows : Memory V → Store V → Prop
  sees : ∀ {m σ}, shows m σ → S.Sees m.values σ.values
  set : ∀ {m σ x type} (v : V), shows m σ → S.type? x = some type →
    shows (m.setVariable (S.qualifier ++ x) v) (σ.set x v)
  give : ∀ {m σ type} (inputs : SignalRef → V) (e : HwExpr), S.result = some type → shows m σ →
    shows (HwStmt.exec I inputs (.assign S.target e) m)
      { σ with result := some (e.eval I inputs m.values) }

def View.own (I : Interpretation V) (S : Scope) : View I (S.own []) where
  shows m σ := m.store = σ
  sees h := by
    rintro x - -
    rw [← h]
    exact congrArg _ (String.empty_append)
  set v h _ := by
    rw [← h]
    exact congrArg (fun x ↦ (Memory.setVariable _ x v).store) String.empty_append
  give _ _ _ h := by
    rw [← h]
    rfl

namespace Execution

variable (x : Execution I M) (name : DraftTarget → ι) {S : MemberPlace} (W : View I S)

def Returned (t : Nat) (d : Draft) (m : Memory V) : Prop :=
  if d.frame.isExpanded then ∃ i ∈ d.frame.returns, x.Ran name t d.code i m
  else x.Enters name t .finished m

def Exits (here : Nat → Memory V → Prop) (t : Nat) (d : Draft) (m : Memory V) : Outcome → Prop
  | .normal => here t m
  | .broke => ∃ y ∈ d.loops.head?, ∃ i ∈ y.breaks, x.Ran name t d.code i m
  | .continued => ∃ y ∈ d.loops.head?, ∃ i ∈ y.continues, x.Ran name t d.code i m
  | .returned => x.Returned name t d m

/-- The machine does what a run does. If the run does not end, the machine is busy for at least the
given number of cycles; without such a number the run has to end. -/
def Follows (cycles : Option Nat) (here : Nat → Memory V → Prop) (t : Nat) (d : Draft) :
    Option (Outcome × Store V) → Prop
  | some (o, σ) => ∃ t' m, W.shows m σ ∧ x.Works name t t' ∧ x.Exits name here t' d m o
  | none => ∃ n ∈ cycles, ∃ t', t + n ≤ t' ∧ x.Works name t t'

/-- Where the machine is after the body of a loop. `out` is where the loop is left and `again` is
where its step begins. -/
def ExitsBody (out again : Nat → Memory V → Prop) (t : Nat) (d : Draft) (m : Memory V) :
    Outcome → Prop
  | .broke => out t m
  | .returned => x.Returned name t d m
  | .normal | .continued => again t m

def FollowsBody (cycles : Nat) (out again : Nat → Memory V → Prop) (t : Nat) (d : Draft) :
    Option (Outcome × Store V) → Prop
  | some (o, σ) => ∃ t' m, W.shows m σ ∧ x.Works name t t' ∧ x.ExitsBody name out again t' d m o
  | none => ∃ t', t + cycles ≤ t' ∧ x.Works name t t'

variable {x name W} {cycles : Option Nat} {n n' t t' : Nat} {here here' : Nat → Memory V → Prop}
  {d d' : Draft} {m : Memory V} {σ : Store V} {r : Option (Outcome × Store V)} {L L' : Multiset Nat}
  {B C R : List Nat}

theorem Follows.of_normal (hm : W.shows m σ) (h : here t m) :
    x.Follows name W cycles here t d (some (.normal, σ)) :=
  ⟨t, m, hm, .refl t, h⟩

theorem Follows.after (hw : x.Works name t t') (h : x.Follows name W cycles here t' d r) :
    x.Follows name W cycles here t d r := by
  match r, h with
  | some _, ⟨t'', m, hm, hw', he⟩ => exact ⟨t'', m, hm, hw.trans hw', he⟩
  | none, ⟨n, hn, t'', hle, hw'⟩ =>
    exact ⟨n, hn, t'', (Nat.add_le_add_right hw.le _).trans hle, hw.trans hw'⟩

/-- A machine that has worked for a cycle already is busy for one cycle more. -/
theorem Follows.succ (hw : x.Works name t t') (hlt : t < t')
    (h : x.Follows name W (some n) here t' d r) :
    x.Follows name W (some (n + 1)) here t d r := by
  match r, h with
  | some _, ⟨t'', m, hm, hw', he⟩ => exact ⟨t'', m, hm, hw.trans hw', he⟩
  | none, ⟨k, hk, t'', hle, hw'⟩ =>
    obtain rfl := Option.some.inj hk
    exact ⟨n + 1, rfl, t'', by omega, hw.trans hw'⟩

theorem Follows.mono (h : x.Follows name W (some n) here t d r) (hle : n' ≤ n) :
    x.Follows name W (some n') here t d r := by
  match r, h with
  | some _, h => exact h
  | none, ⟨k, hk, t', h, hw⟩ =>
    obtain rfl := Option.some.inj hk
    exact ⟨n', rfl, t', (Nat.add_le_add_left hle t).trans h, hw⟩

theorem mem_looseExits {y : LoopExits} (hy : y ∈ d.loops.head?) {i : Nat}
    (hi : i ∈ y.breaks ∨ i ∈ y.continues) : i ∈ d.looseExits := by
  cases hl : d.loops with
  | nil =>
    rw [hl] at hy
    exact nomatch hy
  | cons z rest =>
    rw [hl] at hy
    obtain rfl := Option.some.inj hy
    unfold Draft.looseExits
    rw [hl, List.map_cons, List.sum_cons, Multiset.mem_add, Multiset.mem_add, Multiset.mem_add]
    exact .inl (.inl hi)

theorem mem_looseExits_of_returns {i : Nat} (hi : i ∈ d.frame.returns) : i ∈ d.looseExits :=
  Multiset.mem_add.2 (.inr hi)

theorem Draft.Grows.head? (hg : d.Grows B C R d') {y : LoopExits} (hy : y ∈ d.loops.head?) :
    y.add B C ∈ d'.loops.head? := by
  rw [hg.loops]
  cases hl : d.loops with
  | nil =>
    rw [hl] at hy
    exact nomatch hy
  | cons z rest =>
    rw [hl] at hy
    obtain rfl := Option.some.inj hy
    rfl

theorem Returned.later (h : x.Returned name t d m) (hl : d.Before L d' L')
    (hg : d.Grows B C R d') : x.Returned name t d' m := by
  have hexpanded : d'.frame.isExpanded = d.frame.isExpanded := by rw [hg.frame]
  have hreturns : d'.frame.returns = d.frame.returns ++ R := by rw [hg.frame]
  unfold Returned at h ⊢
  rw [hexpanded]
  split at h
  next hx =>
    rw [if_pos hx, hreturns]
    obtain ⟨i, hi, hran⟩ := h
    exact ⟨i, List.mem_append_left _ hi,
      hran.later (Multiset.mem_add.2 (.inl (mem_looseExits_of_returns hi))) hl⟩
  next hx =>
    rw [if_neg hx]
    exact h

/-- A statement that does not end normally has its exits in every draft that follows. -/
theorem Exits.later {o : Outcome} (h : x.Exits name here t d m o) (ho : o ≠ .normal)
    (hl : d.Before L d' L') (hg : d.Grows B C R d') : x.Exits name here' t d' m o := by
  match o, h with
  | .normal, _ => exact absurd rfl ho
  | .broke, ⟨y, hy, i, hi, hran⟩ =>
    have hmem := mem_looseExits hy (.inl hi)
    exact ⟨_, Draft.Grows.head? hg hy, i, List.mem_append_left _ hi,
      hran.later (Multiset.mem_add.2 (.inl hmem)) hl⟩
  | .continued, ⟨y, hy, i, hi, hran⟩ =>
    have hmem := mem_looseExits hy (.inr hi)
    exact ⟨_, Draft.Grows.head? hg hy, i, List.mem_append_left _ hi,
      hran.later (Multiset.mem_add.2 (.inl hmem)) hl⟩
  | .returned, h => exact Returned.later h hl hg

theorem Follows.andThen {next : Store V → Option (Outcome × Store V)}
    (h : x.Follows name W cycles here t d r)
    (hnext : ∀ t' m σ, t ≤ t' → W.shows m σ → here t' m →
      x.Follows name W cycles here' t' d' (next σ))
    (hl : d.Before L d' L') (hg : d.Grows B C R d') :
    x.Follows name W cycles here' t d' (Store.andThen next r) := by
  match r, h with
  | some (.normal, _), ⟨t', m, hm, hw, he⟩ => exact (hnext t' m _ hw.le hm he).after hw
  | some (.broke, _), ⟨t', m, hm, hw, he⟩ => exact ⟨t', m, hm, hw, he.later nofun hl hg⟩
  | some (.continued, _), ⟨t', m, hm, hw, he⟩ => exact ⟨t', m, hm, hw, he.later nofun hl hg⟩
  | some (.returned, _), ⟨t', m, hm, hw, he⟩ => exact ⟨t', m, hm, hw, he.later nofun hl hg⟩
  | none, h => exact h

theorem Follows.join (h : x.Follows name W cycles here t d r)
    (hnext : ∀ t' m, here t' m → ∃ t'', x.Works name t' t'' ∧ here' t'' m)
    (hl : d.Before L d' L') (hg : d.Grows B C R d') : x.Follows name W cycles here' t d' r := by
  match r, h with
  | some (.normal, _), ⟨t', m, hm, hw, he⟩ =>
    obtain ⟨t'', hw', he'⟩ := hnext t' m he
    exact ⟨t'', m, hm, hw.trans hw', he'⟩
  | some (.broke, _), ⟨t', m, hm, hw, he⟩ => exact ⟨t', m, hm, hw, he.later nofun hl hg⟩
  | some (.continued, _), ⟨t', m, hm, hw, he⟩ => exact ⟨t', m, hm, hw, he.later nofun hl hg⟩
  | some (.returned, _), ⟨t', m, hm, hw, he⟩ => exact ⟨t', m, hm, hw, he.later nofun hl hg⟩
  | none, h => exact h

theorem Follows.body {out again : Nat → Memory V → Prop} {exits : LoopExits}
    {loops : List LoopExits} (h : x.Follows name W (some n) here t d r)
    (hloops : d.loops = exits :: loops)
    (hbreaks : ∀ i ∈ exits.breaks, ∀ ⦃t m⦄, x.Ran name t d.code i m →
      ∃ t', x.Works name t t' ∧ out t' m)
    (hcontinues : ∀ i ∈ exits.continues, ∀ ⦃t m⦄, x.Ran name t d.code i m →
      ∃ t', x.Works name t t' ∧ again t' m)
    (hnormal : ∀ ⦃t m⦄, here t m → ∃ t', x.Works name t t' ∧ again t' m)
    (hreturned : ∀ ⦃t m⦄, x.Returned name t d m → x.Returned name t d' m) :
    x.FollowsBody name W n out again t d' r := by
  match r, h with
  | some (.normal, _), ⟨t', m, hm, hw, he⟩ =>
    obtain ⟨t'', hw', he'⟩ := hnormal he
    exact ⟨t'', m, hm, hw.trans hw', he'⟩
  | some (.broke, _), ⟨t', m, hm, hw, y, hy, i, hi, hran⟩ =>
    rw [hloops] at hy
    obtain rfl := Option.some.inj hy
    obtain ⟨t'', hw', he'⟩ := hbreaks i hi hran
    exact ⟨t'', m, hm, hw.trans hw', he'⟩
  | some (.continued, _), ⟨t', m, hm, hw, y, hy, i, hi, hran⟩ =>
    rw [hloops] at hy
    obtain rfl := Option.some.inj hy
    obtain ⟨t'', hw', he'⟩ := hcontinues i hi hran
    exact ⟨t'', m, hm, hw.trans hw', he'⟩
  | some (.returned, _), ⟨t', m, hm, hw, he⟩ => exact ⟨t', m, hm, hw, hreturned he⟩
  | none, ⟨k, hk, t', hle, hw⟩ =>
    obtain rfl := Option.some.inj hk
    exact ⟨t', hle, hw⟩

end Execution

end Fabric
