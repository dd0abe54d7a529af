import Fabric.Proofs.Machine.Flow
import Fabric.Proofs.Source.Logic

/-!
Members that answer. A slot is served if it reports the end of every invocation with its result some
time after the invocation is started, and drops the report some time after the start signal is
dropped. Main statement: a batch of calls passes from the state that waits for idle slots to the one
that reads the results, with the right results on the pins.
-/

namespace Fabric

variable {V ι : Type} (I : Interpretation V)

namespace Memory

def raised (m : Memory V) (target : String) (slot : UInt32) : Bool :=
  ((m.driven (.invocation target slot .started)).map I.truth).getD false

def start (m : Memory V) (c : Invocation) (entries : List (String × V)) : Memory V :=
  (entries.foldl (fun m p ↦ m.drive I (c.pin (.parameter p.1)) p.2) m).drive I (c.pin .started)
    (I.bool true)

def startAll (entries : Invocation → List (String × V)) (m : Memory V) (calls : List Invocation) :
    Memory V :=
  calls.foldl (fun m c ↦ m.start I c (entries c)) m

end Memory

variable {I} {M : Machine ι}

namespace Execution

variable (x : Execution I M) (w : World V) (target : String) (slot : UInt32)

def started (t : Nat) : Bool := (x.config t).memory.raised I target slot

def finished (t : Nat) : Bool := I.truth (x.inputs t (.invocation target slot .finished))

/-- A slot that is served. If the start signal goes up while the end signal is down, then the end
signal goes up, stays up with the result as long as the start signal does, and goes down after it. -/
structure Serves : Prop where
  boolean : ∀ t, x.inputs t (.invocation target slot .finished) =
    I.bool (x.finished target slot t)
  drops : ∀ t, (∀ k ≥ t, x.started target slot k = false) → ∃ k ≥ t, x.finished target slot k = false
  rests : ∀ t, x.finished target slot t = false → x.started target slot (t + 1) = false →
    x.finished target slot (t + 1) = false
  answers : ∀ t, x.finished target slot t = false → (∀ k > t, x.started target slot k = true) →
    ∃ k > t, x.finished target slot k = true
  holds : ∀ t k, t < k → x.finished target slot t = false →
    (∀ j, t < j → j ≤ k + 1 → x.started target slot j = true) →
    x.finished target slot k = true → x.finished target slot (k + 1) = true
  result : ∀ t k, t < k → x.finished target slot t = false →
    (∀ j, t < j → j ≤ k → x.started target slot j = true) → x.finished target slot k = true →
    x.inputs k (.invocation target slot .result) =
      I.bool (w.result (target, (x.config k).memory.arguments target slot))

variable {x w target slot}

namespace Serves

theorem stays_down (h : x.Serves w target slot) {t k : Nat} (htk : t ≤ k)
    (hdown : x.finished target slot t = false)
    (hstarted : ∀ j, t < j → j ≤ k → x.started target slot j = false) :
    x.finished target slot k = false := by
  induction k, htk using Nat.le_induction with
  | base => exact hdown
  | succ k htk ih =>
    exact h.rests k (ih fun j hj hjk ↦ hstarted j hj (by omega)) (hstarted (k + 1) (by omega) le_rfl)

theorem stays_up (h : x.Serves w target slot) {t k k' : Nat} (htk : t < k) (hkk : k ≤ k')
    (hdown : x.finished target slot t = false)
    (hstarted : ∀ j, t < j → j ≤ k' → x.started target slot j = true)
    (hup : x.finished target slot k = true) : x.finished target slot k' = true := by
  induction k', hkk using Nat.le_induction with
  | base => exact hup
  | succ k' hkk ih =>
    exact h.holds t k' (by omega) hdown hstarted (ih fun j hj hjk ↦ hstarted j hj (by omega))

end Serves

variable {name : DraftTarget → ι} {code : Code} {t i : Nat} {m : Memory V}

/-- A state that waits for a condition is left when the condition holds; nothing changes till
then. -/
theorem Enters.waitFor (hM : M.Realizes name code) {b : Block} (hb : code[i]? = some b)
    (hbody : b.body = []) {c : HwExpr} {next : DraftTarget} (ht : b.transition = .waitFor c next)
    (h : x.Enters name t (.state i) m)
    (hlive : (∀ k ≥ t, (x.config k).memory = m) →
      ∃ n, ∀ k ≥ n, I.truth (c.eval I (x.inputs k) m.values) = true) :
    ∃ t' > t, x.Works name t t' ∧ x.Enters name t' next m ∧
      (∀ k, t ≤ k → k ≤ t' → (x.config k).memory = m) ∧
      I.truth (c.eval I (x.inputs (t' - 1)) m.values) = true := by
  by_contra hno
  -- From every cycle in which the state is entered it is entered again.
  have hagain (n : Nat) : ∃ k ≥ t + n, x.Works name t k ∧ x.Enters name k (.state i) m ∧
      ∀ j, t ≤ j → j ≤ k → (x.config j).memory = m := by
    induction n with
    | zero =>
      refine ⟨t, le_rfl, .refl t, h, fun j hj hjk ↦ ?_⟩
      obtain rfl : j = t := by omega
      exact congrArg Configuration.memory h
    | succ n ih =>
      obtain ⟨k, hk, hworks, henters, hsame⟩ := ih
      obtain ⟨k', hlt, hworks', henters', hsame'⟩ := At.passes hM hb (hbody ▸ henters.at)
      have hall (j : Nat) (hj : t ≤ j) (hjk : j ≤ k') : (x.config j).memory = m := by
        rcases Nat.lt_or_ge k j with hkj | hjk'
        · exact hsame' j hkj hjk
        · exact hsame j hj hjk'
      rw [ht, Transition.next] at henters'
      cases hc : I.truth (c.eval I (x.inputs (k' - 1)) m.values) with
      | true =>
        rw [if_pos hc] at henters'
        exact absurd ⟨k', by omega, hworks.trans hworks', henters', hall, hc⟩ hno
      | false =>
        rw [if_neg (by simp [hc])] at henters'
        exact ⟨k', by omega, hworks.trans hworks', henters', hall⟩
  obtain ⟨n, hn⟩ := hlive fun k hk ↦ by
    obtain ⟨k', hk', -, -, hsame⟩ := hagain (k - t)
    exact hsame k hk (by omega)
  obtain ⟨k, hk, hworks, henters, hsame⟩ := hagain n
  obtain ⟨k', hlt, hworks', henters', hsame'⟩ := At.passes hM hb (hbody ▸ henters.at)
  have hc := hn (k' - 1) (by omega)
  rw [ht, Transition.next, if_pos hc] at henters'
  refine hno ⟨k', by omega, hworks.trans hworks', henters', fun j hj hjk ↦ ?_, hc⟩
  rcases Nat.lt_or_ge k j with hkj | hjk'
  · exact hsame' j hkj hjk
  · exact hsame j hj hjk'

end Execution

theorem HwExpr.truth_all (hI : I.IsBoolean) (inputs : SignalRef → V) (values : String → V)
    {conditions : List HwExpr}
    (h : ∀ e ∈ conditions, ∃ b, e.eval I inputs values = I.bool b) :
    I.truth ((HwExpr.all conditions).eval I inputs values) =
      conditions.all fun e ↦ I.truth (e.eval I inputs values) := by
  have hfold (rest : List HwExpr) (hrest : ∀ e ∈ rest, ∃ b, e.eval I inputs values = I.bool b)
      (c : HwExpr) (a : Bool) (hc : c.eval I inputs values = I.bool a) :
      I.truth ((rest.foldl (fun acc next ↦ HwExpr.binary .and acc next .boolean) c).eval I inputs
        values) = (a && rest.all fun e ↦ I.truth (e.eval I inputs values)) := by
    induction rest generalizing c a with
    | nil => simp [hc, hI.truth]
    | cons e rest ih =>
      obtain ⟨b, hb⟩ := hrest e List.mem_cons_self
      have hand : (HwExpr.binary .and c e .boolean).eval I inputs values = I.bool (a && b) := by
        rw [HwExpr.eval, hc, hb]
        exact hI.binary .bitAnd rfl a b
      rw [List.foldl_cons, ih (fun e he ↦ hrest e (List.mem_cons_of_mem _ he)) _ _ hand,
        List.all_cons, hb, hI.truth, Bool.and_assoc]
  cases conditions with
  | nil => exact hI.truth true
  | cons c rest =>
    obtain ⟨a, ha⟩ := h c List.mem_cons_self
    rw [HwExpr.all, hfold rest (fun e he ↦ h e (List.mem_cons_of_mem _ he)) c a ha, List.all_cons,
      ha, hI.truth]

def pinnedOn (f : String → Option V) (entries : List (String × V)) : String → Option V :=
  entries.foldl (fun f p x ↦ if x = p.1 then some p.2 else f x) f

theorem pinnedOn_eq {f : String → Option V} {entries : List (String × V)}
    (h : ∀ x, f x ≠ none → x ∈ entries.map Prod.fst) : pinnedOn f entries = pinned entries := by
  have hfold (g : String → Option V) (x : String) (hx : x ∉ entries.map Prod.fst → f x = g x) :
      pinnedOn f entries x = pinnedOn g entries x := by
    clear h
    induction entries generalizing f g with
    | nil => exact hx List.not_mem_nil
    | cons p rest ih =>
      refine ih _ fun hrest ↦ ?_
      by_cases hp : x = p.1
      · simp [hp]
      · simp only [if_neg hp]
        exact hx (by simp [hp, hrest])
  funext x
  refine hfold (fun _ ↦ none) x fun hx ↦ ?_
  by_contra hf
  exact hx (h x hf)

namespace Memory

variable {m : Memory V} {c : Invocation} {entries : List (String × V)}

structure Pins (c : Invocation) (entries : List (String × V)) (m m' : Memory V) : Prop where
  values : m'.values = m.values
  arguments : m'.arguments c.target c.slot = pinnedOn (m.arguments c.target c.slot) entries
  other : ∀ target slot kind, (target, slot) ≠ c.place →
    m'.driven (.invocation target slot kind) = m.driven (.invocation target slot kind)

theorem drive_other (m : Memory V) {signal s : SignalRef} (value : V) (h : s ≠ signal) :
    (m.drive I signal value).driven s = m.driven s :=
  if_neg h

theorem pins_drive (m : Memory V) (c : Invocation) (entries : List (String × V)) :
    m.Pins c entries (entries.foldl (fun m p ↦ m.drive I (c.pin (.parameter p.1)) p.2) m) ∧
      (entries.foldl (fun m p ↦ m.drive I (c.pin (.parameter p.1)) p.2) m).started =
        m.started := by
  induction entries generalizing m with
  | nil => exact ⟨⟨rfl, rfl, fun _ _ _ _ ↦ rfl⟩, rfl⟩
  | cons p rest ih =>
    obtain ⟨⟨hvalues, harguments, hother⟩, hstarted⟩ := ih (m.drive I (c.pin (.parameter p.1)) p.2)
    refine ⟨⟨hvalues, ?_, fun target slot kind hne ↦ ?_⟩, hstarted⟩
    · refine harguments.trans (congrArg (fun f ↦ pinnedOn f rest) ?_)
      funext y
      simp [Memory.arguments, drive, Invocation.pin]
    · refine (hother target slot kind hne).trans (drive_other m p.2 fun heq ↦ hne ?_)
      obtain ⟨rfl, rfl, -⟩ := SignalRef.invocation.inj heq
      rfl

theorem pins_start (m : Memory V) (c : Invocation) (entries : List (String × V)) :
    m.Pins c entries (m.start I c entries) := by
  obtain ⟨⟨hvalues, harguments, hother⟩, -⟩ := m.pins_drive (I := I) c entries
  refine ⟨hvalues, Eq.trans ?_ harguments, fun target slot kind hne ↦ ?_⟩
  · funext y
    exact drive_other _ _ (by simp [Invocation.pin])
  · refine (drive_other _ _ fun heq ↦ hne ?_).trans (hother target slot kind hne)
    obtain ⟨rfl, rfl, -⟩ := SignalRef.invocation.inj heq
    rfl

theorem raised_start (hI : I.IsBoolean) (m : Memory V) (c : Invocation)
    (entries : List (String × V)) : (m.start I c entries).raised I c.target c.slot = true := by
  simp [raised, start, drive, Invocation.pin, hI.truth]

theorem started_start (hI : I.IsBoolean) (m : Memory V) (c : Invocation)
    (entries : List (String × V)) : (m.start I c entries).started =
      m.started ++ [(c.target, pinnedOn (m.arguments c.target c.slot) entries)] := by
  obtain ⟨⟨-, harguments, -⟩, hstarted⟩ := m.pins_drive (I := I) c entries
  have hdrive (m : Memory V) : (m.drive I (c.pin .started) (I.bool true)).started =
      m.started ++ [(c.target, m.arguments c.target c.slot)] := by
    simp [drive, Invocation.pin, hI.truth]
  rw [start, hdrive, hstarted, harguments]

/-- Starting a call in a state is starting it with the values of its arguments. -/
theorem execAll_startBody (inputs : SignalRef → V) (m : Memory V) (c : Invocation) :
    HwStmt.execAll I inputs c.startBody m =
      m.start I c (c.arguments.map fun a ↦ (a.1, a.2.eval I inputs m.values)) := by
  have hdrive (arguments : List (String × HwExpr)) (m : Memory V) :
      HwStmt.execAll I inputs (arguments.map fun a ↦ .drive (c.pin (.parameter a.1)) a.2) m =
        (arguments.map fun a ↦ (a.1, a.2.eval I inputs m.values)).foldl
          (fun m p ↦ m.drive I (c.pin (.parameter p.1)) p.2) m := by
    induction arguments generalizing m with
    | nil => rfl
    | cons a rest ih => exact ih _
  unfold Invocation.startBody
  rw [HwStmt.execAll_append, start, ← hdrive]
  rfl

section

variable {entries : Invocation → List (String × V)} {calls : List Invocation}

theorem startAll_cons (m : Memory V) (c : Invocation) (calls : List Invocation) :
    m.startAll I entries (c :: calls) = (m.start I c (entries c)).startAll I entries calls :=
  rfl

theorem values_startAll (m : Memory V) (calls : List Invocation) :
    (m.startAll I entries calls).values = m.values := by
  induction calls generalizing m with
  | nil => rfl
  | cons c rest ih => exact (ih _).trans (m.pins_start c (entries c)).values

theorem driven_startAll {target : String} {slot : UInt32}
    (h : (target, slot) ∉ calls.map Invocation.place) (m : Memory V) (kind : PinKind) :
    (m.startAll I entries calls).driven (.invocation target slot kind) =
      m.driven (.invocation target slot kind) := by
  induction calls generalizing m with
  | nil => rfl
  | cons c rest ih =>
    rw [List.map_cons, List.mem_cons, not_or] at h
    exact (ih h.2 _).trans ((m.pins_start c (entries c)).other target slot kind h.1)

theorem raised_startAll (hI : I.IsBoolean) (hn : (calls.map Invocation.place).Nodup)
    (m : Memory V) (hc : c ∈ calls) :
    (m.startAll I entries calls).raised I c.target c.slot = true := by
  induction calls generalizing m with
  | nil => cases hc
  | cons b rest ih =>
    obtain ⟨hb, hn⟩ := List.nodup_cons.1 hn
    rcases List.mem_cons.1 hc with rfl | hc
    · rw [startAll_cons, raised, driven_startAll hb]
      exact m.raised_start hI c (entries c)
    · exact ih hn _ hc

def Clear (entries : Invocation → List (String × V)) (m : Memory V) (c : Invocation) : Prop :=
  ∀ name, m.arguments c.target c.slot name ≠ none → name ∈ (entries c).map Prod.fst

theorem arguments_startAll (hn : (calls.map Invocation.place).Nodup)
    (hclear : ∀ c ∈ calls, m.Clear entries c) (hc : c ∈ calls) :
    (m.startAll I entries calls).arguments c.target c.slot = pinned (entries c) := by
  induction calls generalizing m with
  | nil => cases hc
  | cons b rest ih =>
    obtain ⟨hb, hn⟩ := List.nodup_cons.1 hn
    have hstart := m.pins_start (I := I) b (entries b)
    rcases List.mem_cons.1 hc with rfl | hc
    · have hkeep : (m.startAll I entries (c :: rest)).arguments c.target c.slot =
          (m.start I c (entries c)).arguments c.target c.slot := by
        funext x
        exact driven_startAll hb _ _
      rw [hkeep, hstart.arguments, pinnedOn_eq (hclear c List.mem_cons_self)]
    · refine ih hn (fun a ha ↦ ?_) hc
      have hkeep : (m.start I b (entries b)).arguments a.target a.slot =
          m.arguments a.target a.slot := by
        funext x
        exact hstart.other a.target a.slot _ fun heq ↦ hb (heq ▸ List.mem_map_of_mem ha)
      unfold Clear
      rw [hkeep]
      exact hclear a (List.mem_cons_of_mem _ ha)

theorem started_startAll (hI : I.IsBoolean) (hn : (calls.map Invocation.place).Nodup)
    (hclear : ∀ c ∈ calls, m.Clear entries c) :
    (m.startAll I entries calls).started =
      m.started ++ calls.map fun c ↦ (c.target, pinned (entries c)) := by
  induction calls generalizing m with
  | nil => exact (List.append_nil _).symm
  | cons b rest ih =>
    obtain ⟨hb, hn⟩ := List.nodup_cons.1 hn
    have hstart := m.pins_start (I := I) b (entries b)
    rw [startAll_cons, ih hn fun a ha ↦ ?_, m.started_start hI, List.map_cons,
      pinnedOn_eq (hclear b List.mem_cons_self), List.append_assoc, List.singleton_append]
    have hkeep : (m.start I b (entries b)).arguments a.target a.slot =
        m.arguments a.target a.slot := by
      funext x
      exact hstart.other a.target a.slot _ fun heq ↦ hb (heq ▸ List.mem_map_of_mem ha)
    unfold Clear
    rw [hkeep]
    exact hclear a (List.mem_cons_of_mem _ ha)

theorem execAll_startAll {inputs : SignalRef → V}
    (h : ∀ c ∈ calls, (c.arguments.map fun a ↦ (a.1, a.2.eval I inputs m.values)) = entries c) :
    HwStmt.execAll I inputs (calls.flatMap Invocation.startBody) m =
      m.startAll I entries calls := by
  induction calls generalizing m with
  | nil => rfl
  | cons c rest ih =>
    obtain ⟨hc, hrest⟩ := List.forall_mem_cons.1 h
    rw [List.flatMap_cons, HwStmt.execAll_append, execAll_startBody, hc]
    refine ih ?_
    rw [(m.pins_start c (entries c)).values]
    exact hrest

end

end Memory

namespace Execution

variable {x : Execution I M} {w : World V} {name : DraftTarget → ι} {code : Code} {t : Nat}
  {m : Memory V} {calls : List Invocation}

theorem eventually_all {α : Type} (as : List α) (p : α → Nat → Prop)
    (h : ∀ a ∈ as, ∃ n, ∀ k ≥ n, p a k) : ∃ n, ∀ k ≥ n, ∀ a ∈ as, p a k := by
  induction as with
  | nil => exact ⟨0, fun _ _ ↦ List.forall_mem_nil _⟩
  | cons a as ih =>
    obtain ⟨ha, has⟩ := List.forall_mem_cons.1 h
    obtain ⟨n, hn⟩ := ha
    obtain ⟨n', hn'⟩ := ih has
    refine ⟨max n n', fun k hk ↦ List.forall_mem_cons.2 ⟨hn k (by omega), hn' k (by omega)⟩⟩

theorem truth_idle (hI : I.IsBoolean) (hserves : ∀ c ∈ calls, x.Serves w c.target c.slot)
    (k : Nat) (values : String → V) :
    I.truth ((Invocation.idle calls).eval I (x.inputs k) values) = true ↔
      ∀ c ∈ calls, x.finished c.target c.slot k = false := by
  have hnot (c) (hc : c ∈ calls) :
      (HwExpr.unary .not c.finished).eval I (x.inputs k) values =
        I.bool !x.finished c.target c.slot k := by
    rw [HwExpr.eval, Invocation.finished, HwExpr.eval, Invocation.pin, (hserves c hc).boolean, hI.not]
  rw [Invocation.idle, HwExpr.truth_all hI, List.all_map, List.all_eq_true]
  · refine forall₂_congr fun c hc ↦ ?_
    rw [Function.comp_apply, hnot c hc, hI.truth, Bool.not_eq_true']
  · intro e he
    obtain ⟨c, hc, rfl⟩ := List.mem_map.1 he
    exact ⟨_, hnot c hc⟩

theorem truth_finished (hI : I.IsBoolean) (hserves : ∀ c ∈ calls, x.Serves w c.target c.slot)
    (k : Nat) (values : String → V) :
    I.truth ((HwExpr.all (calls.map Invocation.finished)).eval I (x.inputs k) values) = true ↔
      ∀ c ∈ calls, x.finished c.target c.slot k = true := by
  rw [HwExpr.truth_all hI, List.all_map, List.all_eq_true]
  · rfl
  · intro e he
    obtain ⟨c, hc, rfl⟩ := List.mem_map.1 he
    exact ⟨_, (hserves c hc).boolean k⟩

/-- A batch of calls, from the state that waits for idle slots to the one that reads the results. -/
theorem Enters.exchange (hI : I.IsBoolean) (hM : M.Realizes name code)
    (hserves : ∀ c ∈ calls, x.Serves w c.target c.slot) {i n : Nat} {b : Block}
    (hready : code[i]? = some b) (hbody : b.body = [])
    (hidle : b.transition = .waitFor (Invocation.idle calls) (.state n))
    (hstart : code[n]? =
      some ⟨.state n, calls.flatMap Invocation.startBody, .goto (.state (n + 1))⟩)
    (hwait : code[n + 1]? =
      some ⟨.state (n + 1), [], .waitFor (.all (calls.map Invocation.finished)) (.state (n + 2))⟩)
    (hplaces : (calls.map Invocation.place).Nodup)
    (hdown : ∀ c ∈ calls, m.raised I c.target c.slot = false)
    {entries : Invocation → List (String × V)}
    (hentries : ∀ c ∈ calls, ∀ inputs,
      (c.arguments.map fun a ↦ (a.1, a.2.eval I inputs m.values)) = entries c)
    (h : x.Enters name t (.state i) m) :
    ∃ t' > t, x.Works name t t' ∧ x.Enters name t' (.state (n + 2)) (m.startAll I entries calls) ∧
      ∀ c ∈ calls, x.inputs t' (c.pin .result) = I.bool (w.result
        (c.target, (m.startAll I entries calls).arguments c.target c.slot)) := by
  -- Slots that are not started report no end from some time on.
  have hquiet (hsame : ∀ k ≥ t, (x.config k).memory = m) : ∃ n, ∀ k ≥ n,
      I.truth ((Invocation.idle calls).eval I (x.inputs k) m.values) = true := by
    have hall := eventually_all calls (fun c k ↦ x.finished c.target c.slot k = false) fun c hc ↦ by
        have hlow (k) (hk : k ≥ t) : x.started c.target c.slot k = false := by
          rw [started, hsame k hk]
          exact hdown c hc
        obtain ⟨n, hn, hfinished⟩ := (hserves c hc).drops t hlow
        exact ⟨n, fun k hk ↦ (hserves c hc).stays_down hk hfinished fun j hj _ ↦ hlow j (by omega)⟩
    obtain ⟨n, hn⟩ := hall
    exact ⟨n, fun k hk ↦ (truth_idle hI hserves k m.values).2 (hn k hk)⟩
  obtain ⟨t₁, hlt₁, hworks₁, henters₁, hsame₁, hcond₁⟩ := h.waitFor hM hready hbody hidle hquiet
  -- The slots are still idle in the cycle in which they are started.
  have hlow (c) (hc : c ∈ calls) : x.finished c.target c.slot t₁ = false := by
    have hbefore := (truth_idle hI hserves (t₁ - 1) m.values).1 hcond₁ c hc
    refine (hserves c hc).stays_down (Nat.sub_le t₁ 1) hbefore fun j hj hjt ↦ ?_
    rw [started, hsame₁ j (by omega) hjt]
    exact hdown c hc
  let m' := m.startAll I entries calls
  have hat : x.At name t₁ n (calls.flatMap Invocation.startBody) m' :=
    ⟨m, henters₁, Memory.execAll_startAll fun c hc ↦ hentries c hc (x.inputs t₁)⟩
  obtain ⟨t₂, hlt₂, hworks₂, henters₂, hsame₂⟩ := hat.passes hM hstart
  rw [Transition.next] at henters₂
  have hup {t' : Nat} (hsame : ∀ k, t₂ ≤ k → k ≤ t' → (x.config k).memory = m') (c) (hc : c ∈ calls)
      (j : Nat) (hj : t₁ < j) (hjt : j ≤ t') : x.started c.target c.slot j = true := by
    have hmemory : (x.config j).memory = m' := by
      rcases Nat.lt_or_ge t₂ j with h | h
      · exact hsame j h.le hjt
      · exact hsame₂ j hj h
    rw [started, hmemory]
    exact Memory.raised_startAll hI hplaces m hc
  have hanswers (hsame : ∀ k ≥ t₂, (x.config k).memory = m') : ∃ n, ∀ k ≥ n,
      I.truth ((HwExpr.all (calls.map Invocation.finished)).eval I (x.inputs k) m'.values) =
        true := by
    have hall := eventually_all calls (fun c k ↦ x.finished c.target c.slot k = true) fun c hc ↦ by
        have hup' (j) (hj : j > t₁) : x.started c.target c.slot j = true :=
          hup (fun k hk _ ↦ hsame k hk) c hc j hj le_rfl
        obtain ⟨n, hn, hfinished⟩ := (hserves c hc).answers t₁ (hlow c hc) hup'
        exact ⟨n, fun k hk ↦ (hserves c hc).stays_up hn hk (hlow c hc) (fun j hj _ ↦ hup' j hj)
          hfinished⟩
    obtain ⟨n, hn⟩ := hall
    exact ⟨n, fun k hk ↦ (truth_finished hI hserves k m'.values).2 (hn k hk)⟩
  obtain ⟨t₃, hlt₃, hworks₃, henters₃, hsame₃, hcond₃⟩ := henters₂.waitFor hM hwait rfl rfl hanswers
  refine ⟨t₃, by omega, (hworks₁.trans hworks₂).trans hworks₃, henters₃, fun c hc ↦ ?_⟩
  have hup₃ := hup hsame₃ c hc
  have hbefore := (truth_finished hI hserves (t₃ - 1) m'.values).1 hcond₃ c hc
  have hfinished := (hserves c hc).stays_up (by omega : t₁ < t₃ - 1) (Nat.sub_le t₃ 1) (hlow c hc)
    (fun j hj hjt ↦ hup₃ j hj hjt) hbefore
  have hresult := (hserves c hc).result t₁ t₃ (by omega) (hlow c hc) (fun j hj hjt ↦ hup₃ j hj hjt)
    hfinished
  rw [hsame₃ t₃ hlt₃.le le_rfl] at hresult
  exact hresult

end Execution

end Fabric
