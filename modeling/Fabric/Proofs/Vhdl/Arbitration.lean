import Fabric.Vhdl.Dispatcher
import Mathlib.Logic.Function.Basic
import Mathlib.Data.Finset.Card

/-!
What a dispatcher does at an edge of the clock. Its variables change at once, and ports are read as
they were before the edge. The assignments to ports are kept in the order in which they are made,
the latest first: the latest one to a port is the one that takes effect.

Main statement: after every edge of the clock different active slots have different instances, exactly
the instances of active slots are busy, and the pins of an instance are driven for the slot that has it;
if there are enough instances, a slot that asks for one has it at once.
-/

namespace Fabric.Vhdl

/-- What a process sees at an edge. -/
structure Edge where
  reset : Bool
  high : Port → Bool

structure Board where
  assigned : Nat → Nat := fun _ ↦ 0
  active : Nat → Bool := fun _ ↦ false
  busy : Nat → Bool := fun _ ↦ false
  drives : List (Port × Option Port) := []

namespace Board

variable (e : Edge) (b : Board)

def flag : Flags → Nat → Bool
  | .active => b.active
  | .busy => b.busy

def setFlags (flags : Flags) (values : Nat → Bool) : Board :=
  match flags with
  | .active => { b with active := values }
  | .busy => { b with busy := values }

def driveAll (drives : List (Port × Option Port)) : Board :=
  { b with drives := drives.reverse ++ b.drives }

def holds : Condition → Bool
  | .reset => e.reset
  | .high port => e.high port
  | .flag flags index => b.flag flags index
  | .assigned slot number => b.assigned slot == number
  | .not c => !holds c

mutual

def run (b : Board) : Sequential → Board
  | .note _ => b
  | .drive target source => b.driveAll [(target, source)]
  | .set flags index value => b.setFlags flags (Function.update (b.flag flags) index value)
  | .clear flags => b.setFlags flags fun _ ↦ false
  | .assign slot number => { b with assigned := Function.update b.assigned slot number }
  | .choose branches otherwise => (b.runBranches branches).getD (b.runRest otherwise)

def runAll (b : Board) : List Sequential → Board
  | [] => b
  | s :: ss => (b.run s).runAll ss

def runBranches (b : Board) : List (Condition × List Sequential) → Option Board
  | [] => none
  | (c, body) :: rest => if b.holds e c then some (b.runAll body) else b.runBranches rest

def runRest (b : Board) : Option (List Sequential) → Board
  | none => b
  | some body => b.runAll body

end

/-- The state after an edge, with the assignments to ports of this edge only. -/
def step (n : Names) (p : Proxy) (b : Board) (e : Edge) : Board :=
  { b with drives := [] }.run e (n.arbitrate p)

/-- The state after a sequence of edges, from the values that the variables are declared with. -/
def after (n : Names) (p : Proxy) (edges : List Edge) : Board :=
  edges.foldl (step n p) {}

def source? (target : Port) : Option (Option Port) :=
  b.drives.lookup target

@[simp]
theorem runAll_nil : b.runAll e [] = b := by rw [runAll]

@[simp]
theorem runAll_cons (s : Sequential) (ss : List Sequential) :
    b.runAll e (s :: ss) = (b.run e s).runAll e ss := by rw [runAll]

theorem runAll_append (ss ts : List Sequential) :
    b.runAll e (ss ++ ts) = (b.runAll e ss).runAll e ts := by
  induction ss generalizing b with
  | nil => simp
  | cons s ss ih => simp [ih]

@[simp]
theorem run_drive (target : Port) (source : Option Port) :
    b.run e (.drive target source) = b.driveAll [(target, source)] := by rw [run]

theorem driveAll_driveAll (ds es : List (Port × Option Port)) :
    (b.driveAll ds).driveAll es = b.driveAll (ds ++ es) := by
  simp [driveAll]

theorem runAll_drives {α : Type} (target : α → Port) (source : α → Option Port) (as : List α) :
    b.runAll e (as.map fun a ↦ .drive (target a) (source a)) =
      b.driveAll (as.map fun a ↦ (target a, source a)) := by
  induction as generalizing b with
  | nil => simp [driveAll]
  | cons a as ih => simp [ih, driveAll_driveAll]

/-- A choice between numbers takes the first one whose condition holds. -/
theorem runBranches_map (c : Nat → Condition) (body : Nat → List Sequential) (ks : List Nat) :
    b.runBranches e (ks.map fun k ↦ (c k, body k)) =
      (ks.find? fun k ↦ b.holds e (c k)).map fun k ↦ b.runAll e (body k) := by
  induction ks with
  | nil => simp [runBranches]
  | cons k ks ih =>
    rw [List.map_cons, runBranches, ih, List.find?_cons]
    cases b.holds e (c k) <;> simp

theorem run_ifThen (c : Condition) (body : List Sequential) :
    b.run e (.choose [(c, body)] none) = if b.holds e c then b.runAll e body else b := by
  rw [run, runBranches, runBranches, runRest]
  split <;> rfl

theorem run_ifElse (c : Condition) (body other : List Sequential) :
    b.run e (.choose [(c, body)] (some other)) =
      if b.holds e c then b.runAll e body else b.runAll e other := by
  rw [run, runBranches, runBranches, runRest]
  split <;> rfl

end Board

theorem lookup_append_of_forall {α β : Type} [BEq α] [LawfulBEq α] {l l' : List (α × β)} {a : α}
    {b : β} (hb : (a, b) ∈ l) (h : ∀ c, (a, c) ∈ l → c = b) : (l ++ l').lookup a = some b := by
  rw [List.lookup_append]
  cases hl : l.lookup a with
  | none => simpa using List.lookup_eq_none_iff.1 hl _ hb
  | some c => rw [h c (mem_of_lookup hl), Option.some_or]

theorem lookup_append_of_not_mem {α β : Type} [BEq α] [LawfulBEq α] {l l' : List (α × β)} {a : α}
    (h : ∀ b, (a, b) ∉ l) : (l ++ l').lookup a = l'.lookup a := by
  rw [List.lookup_append]
  cases hl : l.lookup a with
  | none => rfl
  | some b => exact absurd (mem_of_lookup hl) (h b)

namespace Board

def Has (b : Board) (index number : Nat) : Prop :=
  b.active index = true ∧ b.assigned index = number

structure Exclusive (p : Proxy) (b : Board) : Prop where
  inRange : ∀ i k, b.Has i k → i < p.slots.length ∧ k ∈ instanceNumbers p
  unique : ∀ i j k, b.Has i k → b.Has j k → i = j
  busy_iff : ∀ k, b.busy k = true ↔ ∃ i, b.Has i k

variable {p : Proxy} {e : Edge} {b b' : Board} {i j k l : Nat}

theorem exclusive_of_clear (hactive : ∀ i, b.active i = false) (hbusy : ∀ k, b.busy k = false) :
    b.Exclusive p where
  inRange i k h := absurd h.1 (by simp [hactive])
  unique i j k h := absurd h.1 (by simp [hactive])
  busy_iff k := by simp [Has, hactive, hbusy]

def grant (p : Proxy) (index number : Nat) (b : Board) : Board :=
  { b with
    busy := Function.update b.busy number true
    active := Function.update b.active index true
    assigned := Function.update b.assigned index number }.driveAll
      ((inboundPins p).map fun pin ↦ (.unit number pin, some (.slot index pin)))

def free (index number : Nat) (b : Board) : Board :=
  { b with
    busy := Function.update b.busy number false
    active := Function.update b.active index false }

inductive Turn (p : Proxy) (e : Edge) (i : Nat) (b : Board) : Board → Prop
  | idle (hi : b.active i = false)
      (hwait : e.high (.slot i .started) = true → ∀ k ∈ instanceNumbers p, b.busy k = true) :
      Turn p e i b (b.driveAll [(.slot i .finished, none)])
  | grant (k : Nat) (hi : b.active i = false) (hstarted : e.high (.slot i .started) = true)
      (hk : k ∈ instanceNumbers p) (hfree : b.busy k = false) :
      Turn p e i b ((b.driveAll [(.slot i .finished, none)]).grant p i k)
  | serve (hi : b.active i = true) (hstarted : e.high (.slot i .started) = true) :
      Turn p e i b (b.driveAll
        ((outboundPins p).map fun pin ↦ (.slot i pin, some (.unit (b.assigned i) pin))))
  | drain (hi : b.active i = true) (hstarted : e.high (.slot i .started) = false) :
      Turn p e i b (b.driveAll [(.slot i .finished, some (.unit (b.assigned i) .finished)),
        (.unit (b.assigned i) .started, none)])
  | free (hi : b.active i = true) (hstarted : e.high (.slot i .started) = false)
      (hfinished : e.high (.unit (b.assigned i) .finished) = false) :
      Turn p e i b ((b.driveAll [(.slot i .finished, some (.unit (b.assigned i) .finished)),
        (.unit (b.assigned i) .started, none)]).free i (b.assigned i))

theorem run_acquire (b : Board) (i : Nat) :
    b.run e (acquire p i) =
      (((instanceNumbers p).find? fun k ↦ !b.busy k).map fun k ↦ b.grant p i k).getD b := by
  have hbody (k : Nat) : b.runAll e ([.set .busy k true, .set .active i true, .assign i k]
      ++ (inboundPins p).map fun pin ↦ .drive (.unit k pin) (some (.slot i pin))) =
        b.grant p i k := by
    rw [runAll_append, runAll_drives]
    rfl
  rw [acquire, run, runBranches_map, runRest]
  simp only [hbody]
  rfl

theorem find?_assigned (hk : b.assigned i ∈ instanceNumbers p) :
    ((instanceNumbers p).find? fun k ↦ b.assigned i == k) = some (b.assigned i) := by
  cases hfind : (instanceNumbers p).find? fun k ↦ b.assigned i == k with
  | none => simpa using List.find?_eq_none.1 hfind _ hk
  | some k => rw [eq_of_beq (List.find?_some hfind)]

theorem run_release (hk : b.assigned i ∈ instanceNumbers p) :
    b.run e (release p i) =
      if e.high (.slot i .started) then
        b.driveAll ((outboundPins p).map fun pin ↦ (.slot i pin, some (.unit (b.assigned i) pin)))
      else
        let drained := b.driveAll [(.slot i .finished, some (.unit (b.assigned i) .finished)),
          (.unit (b.assigned i) .started, none)]
        if e.high (.unit (b.assigned i) .finished) then drained
        else drained.free i (b.assigned i) := by
  rw [release, run, runBranches_map, runRest]
  simp only [holds, find?_assigned hk, Option.map_some, Option.getD_some]
  rw [runAll_cons, runAll_nil, run_ifElse, runAll_drives]
  simp only [runAll_cons, runAll_nil, run_ifThen, holds]
  cases e.high (.unit (b.assigned i) .finished) <;> rfl

/-- An instance of an active slot is one of those that are assigned. -/
theorem turn_serveSlot (hk : b.active i = true → b.assigned i ∈ instanceNumbers p) :
    Turn p e i b (b.run e (serveSlot p i)) := by
  rw [serveSlot, run_ifElse]
  cases hi : b.active i with
  | false =>
    simp only [holds, flag, hi, runAll_cons, runAll_nil, run_ifThen, run_drive]
    cases hstarted : e.high (.slot i .started) with
    | false => exact .idle hi (by simp [hstarted])
    | true =>
      simp only [Bool.not_false, if_true, run_acquire]
      cases hfind : (instanceNumbers p).find? fun k ↦ !(b.driveAll [(.slot i .finished, none)]).busy k with
      | none =>
        refine .idle hi fun _ k hk ↦ ?_
        simpa [driveAll] using List.find?_eq_none.1 hfind k hk
      | some k =>
        refine .grant k hi hstarted (List.mem_of_find?_eq_some hfind) ?_
        simpa [driveAll] using List.find?_some hfind
  | true =>
    simp only [holds, flag, hi, runAll_cons, runAll_nil, run_release (hk hi)]
    cases hstarted : e.high (.slot i .started) with
    | true => exact .serve hi hstarted
    | false =>
      cases hfinished : e.high (.unit (b.assigned i) .finished) with
      | true => exact .drain hi hstarted
      | false => exact .free hi hstarted hfinished

@[simp]
theorem has_driveAll (ds : List (Port × Option Port)) : (b.driveAll ds).Has j l ↔ b.Has j l :=
  Iff.rfl

@[simp]
theorem active_driveAll (ds : List (Port × Option Port)) :
    (b.driveAll ds).active j = b.active j := rfl

@[simp]
theorem active_grant : (b.grant p i k).active j = if j = i then true else b.active j := by
  simp [grant, Function.update_apply]

@[simp]
theorem has_grant : (b.grant p i k).Has j l ↔ if j = i then l = k else b.Has j l := by
  by_cases hj : j = i
  · simp [Has, grant, driveAll, hj, eq_comm]
  · simp [Has, grant, driveAll, hj]

@[simp]
theorem active_free : (b.free i k).active j = if j = i then false else b.active j := by
  simp [free, Function.update_apply]

@[simp]
theorem has_free : (b.free i k).Has j l ↔ j ≠ i ∧ b.Has j l := by
  by_cases hj : j = i
  · simp [Has, free, hj]
  · simp [Has, free, hj]

theorem Exclusive.grant (h : b.Exclusive p) (hi : i < p.slots.length) (hidle : b.active i = false)
    (hk : k ∈ instanceNumbers p) (hfree : b.busy k = false) : (b.grant p i k).Exclusive p where
  inRange j l hj := by
    rw [has_grant] at hj
    split at hj
    next heq => exact ⟨heq ▸ hi, hj ▸ hk⟩
    next => exact h.inRange j l hj
  unique j j' l hj hj' := by
    have hother {x : Nat} (hx : b.Has x k) : False := by
      have hbusy := (h.busy_iff k).2 ⟨x, hx⟩
      simp [hfree] at hbusy
    rw [has_grant] at hj hj'
    split at hj
    next heq =>
      subst hj
      split at hj'
      next heq' => rw [heq, heq']
      next => exact (hother hj').elim
    next =>
      split at hj'
      next =>
        subst hj'
        exact (hother hj).elim
      next => exact h.unique j j' l hj hj'
  busy_iff l := by
    have hbusy : (b.grant p i k).busy l = Function.update b.busy k true l := rfl
    rw [hbusy]
    by_cases hl : l = k
    · rw [hl, Function.update_self]
      exact ⟨fun _ ↦ ⟨i, has_grant.2 (by rw [if_pos rfl])⟩, fun _ ↦ rfl⟩
    · rw [Function.update_of_ne hl, h.busy_iff l]
      refine exists_congr fun j ↦ ?_
      rw [has_grant]
      split
      next heq => simp [Has, heq, hidle, hl]
      next => rfl

theorem Exclusive.free (h : b.Exclusive p) (hik : b.Has i k) : (b.free i k).Exclusive p where
  inRange j l hj := h.inRange j l (has_free.1 hj).2
  unique j j' l hj hj' := h.unique j j' l (has_free.1 hj).2 (has_free.1 hj').2
  busy_iff l := by
    have hbusy : (b.free i k).busy l = Function.update b.busy k false l := rfl
    rw [hbusy]
    by_cases hl : l = k
    · subst hl
      simp only [Function.update_self, Bool.false_eq_true, false_iff, not_exists, has_free]
      exact fun j hj ↦ hj.1 (h.unique j i l hj.2 hik)
    · rw [Function.update_of_ne hl, h.busy_iff l]
      refine exists_congr fun j ↦ ?_
      rw [has_free]
      refine ⟨fun hj ↦ ⟨?_, hj⟩, fun hj ↦ hj.2⟩
      rintro rfl
      exact hl (hj.2.symm.trans hik.2)

theorem Exclusive.driveAll (h : b.Exclusive p) (ds : List (Port × Option Port)) :
    (b.driveAll ds).Exclusive p :=
  ⟨h.inRange, h.unique, h.busy_iff⟩

namespace Turn

theorem exclusive (t : Turn p e i b b') (h : b.Exclusive p) (hi : i < p.slots.length) :
    b'.Exclusive p := by
  cases t with
  | idle | serve | drain => exact h.driveAll _
  | grant k hidle _ hk hfree => exact (h.driveAll _).grant hi hidle hk hfree
  | free hactive => exact (h.driveAll _).free ⟨hactive, rfl⟩

/-- The other slots stay as they are. -/
theorem has_iff (t : Turn p e i b b') (hj : j ≠ i) : b'.Has j k ↔ b.Has j k := by
  cases t <;> simp [hj]

theorem active_eq (t : Turn p e i b b') (hj : j ≠ i) : b'.active j = b.active j := by
  cases t <;> simp [hj]

end Turn

/-- What an assignment to a pin of an instance does for a slot: the slot has just been given the
instance and drives the pin, or it has asked for nothing any more and the instance is told so. -/
def Serves (p : Proxy) (e : Edge) (b b' : Board) (j : Nat) (d : Port × Option Port) : Prop :=
  ∀ k pin, d.1 = .unit k pin →
    b.active j = false ∧ b'.Has j k ∧ pin ∈ inboundPins p ∧ d.2 = some (.slot j pin) ∨
      b.Has j k ∧ e.high (.slot j .started) = false ∧ pin = .started ∧ d.2 = none

theorem serves_slot (pin : PinKind) (source : Option Port) :
    Serves p e b b' i (.slot j pin, source) := nofun

theorem Turn.exists_drives (t : Turn p e i b b') :
    ∃ ds, b'.drives = ds ++ b.drives ∧ ∀ d ∈ ds, b.Serves p e b' i d := by
  cases t with
  | idle => exact ⟨_, rfl, by simp [serves_slot]⟩
  | grant k hidle =>
    refine ⟨_, List.append_assoc _ _ _ |>.symm, fun d hd ↦ ?_⟩
    rcases List.mem_append.1 hd with hd | hd
    · obtain ⟨pin, hpin, rfl⟩ := List.mem_map.1 (List.mem_reverse.1 hd)
      rintro _ _ ⟨⟩
      exact .inl ⟨hidle, by simp, hpin, rfl⟩
    · obtain rfl := List.mem_singleton.1 hd
      exact serves_slot _ _
  | serve =>
    refine ⟨_, rfl, fun d hd ↦ ?_⟩
    obtain ⟨pin, -, rfl⟩ := List.mem_map.1 (List.mem_reverse.1 hd)
    exact serves_slot _ _
  | drain hactive hstarted | free hactive hstarted =>
    refine ⟨_, rfl, fun d hd ↦ ?_⟩
    rcases List.mem_pair.1 hd with rfl | rfl
    · rintro _ _ ⟨⟩
      exact .inr ⟨⟨hactive, rfl⟩, hstarted, rfl, rfl⟩
    · exact serves_slot _ _

inductive Round (p : Proxy) (e : Edge) (b : Board) : Nat → Board → Prop
  | start : Round p e b 0 b
  | turn {i : Nat} {b' b'' : Board} : Round p e b i b' → Turn p e i b' b'' → Round p e b (i + 1) b''

namespace Round

variable {m : Nat}

theorem exclusive (r : Round p e b m b') (h : b.Exclusive p) (hm : m ≤ p.slots.length) :
    b'.Exclusive p := by
  induction r with
  | start => exact h
  | turn _ t ih => exact t.exclusive (ih (by omega)) (by omega)

theorem has_iff (r : Round p e b m b') (hj : m ≤ j) : b'.Has j k ↔ b.Has j k := by
  induction r with
  | start => rfl
  | turn _ t ih => rw [t.has_iff (by omega), ih (by omega)]

theorem active_eq (r : Round p e b m b') (hj : m ≤ j) : b'.active j = b.active j := by
  induction r with
  | start => rfl
  | turn _ t ih => rw [t.active_eq (by omega), ih (by omega)]

theorem serves (r : Round p e b m b') {d : Port × Option Port} (hd : d ∈ b'.drives) :
    d ∈ b.drives ∨ ∃ j < m, b.Serves p e b' j d := by
  induction r with
  | start => exact .inl hd
  | @turn i b' b'' r t ih =>
    obtain ⟨ds, hds, hserves⟩ := t.exists_drives
    rw [hds] at hd
    rcases List.mem_append.1 hd with hd | hd
    · refine .inr ⟨i, by omega, fun k pin hk ↦ ?_⟩
      have hi := hserves d hd k pin hk
      rwa [r.active_eq (le_refl i), r.has_iff (le_refl i)] at hi
    · refine (ih hd).imp id fun ⟨j, hj, hjd⟩ ↦ ⟨j, by omega, fun k pin hk ↦ ?_⟩
      rw [t.has_iff (by omega)]
      exact hjd k pin hk

/-- A slot that has just been given an instance drives all its pins in the end. -/
theorem source?_eq (r : Round p e b m b') (h : b.Exclusive p) (hm : m ≤ p.slots.length)
    (hidle : b.active j = false) (hj : b'.Has j k) {pin : PinKind} (hpin : pin ∈ inboundPins p) :
    b'.source? (.unit k pin) = some (some (.slot j pin)) := by
  induction r with
  | start => exact absurd hj.1 (by simp [hidle])
  | @turn i b' b'' r t ih =>
    by_cases hi : j = i
    · subst hi
      have hbefore := (r.active_eq (le_refl j)).trans hidle
      cases t with
      | grant k' =>
        obtain rfl : k = k' := by simpa using hj
        refine lookup_append_of_forall ?_ fun source hsource ↦ ?_
        · exact List.mem_reverse.2 (List.mem_map_of_mem hpin)
        · obtain ⟨pin', -, heq⟩ := List.mem_map.1 (List.mem_reverse.1 hsource)
          simp only [Prod.mk.injEq, Port.unit.injEq, true_and] at heq
          rw [← heq.2, heq.1]
      | idle => exact absurd hj.1 (by simp [hbefore])
      | serve hactive | drain hactive | free hactive => exact absurd hactive (by simp [hbefore])
    · have hj' : b'.Has j k := (t.has_iff hi).1 hj
      have hb' := r.exclusive h (by omega)
      have hb'' := t.exclusive hb' (by omega)
      obtain ⟨ds, hds, hserves⟩ := t.exists_drives
      rw [source?, hds, lookup_append_of_not_mem, ← source?]
      · exact ih (by omega) hj'
      · intro source hsource
        rcases hserves _ hsource k pin rfl with ⟨-, hnew, -⟩ | ⟨hold, -⟩
        · exact hi (hb''.unique j i k hj hnew)
        · exact hi (hb'.unique j i k hj' hold)

end Round

/-- An idle slot finds a free instance if there are as many instances as slots. -/
theorem Exclusive.exists_free (h : b.Exclusive p) (hi : i < p.slots.length)
    (hidle : b.active i = false) (hlen : p.slots.length ≤ (instanceNumbers p).length) :
    ∃ k ∈ instanceNumbers p, b.busy k = false := by
  by_contra! hall
  have hhas : ∀ k ∈ instanceNumbers p, ∃ j, b.Has j k := fun k hk ↦
    (h.busy_iff k).1 (by simpa using hall k hk)
  choose! holder hholder using hhas
  have hmaps : Set.MapsTo holder (Finset.range (instanceNumbers p).length)
      ((Finset.range p.slots.length).erase i) := by
    intro k hk
    have hk' : k ∈ instanceNumbers p := by simpa [instanceNumbers] using hk
    simp only [Finset.coe_erase, Finset.coe_range, Set.mem_sdiff, Set.mem_Iio, Set.mem_singleton_iff]
    refine ⟨(h.inRange _ _ (hholder k hk')).1, fun heq ↦ ?_⟩
    have hactive := (hholder k hk').1
    simp [heq, hidle] at hactive
  have hinj : Set.InjOn holder (Finset.range (instanceNumbers p).length) := by
    intro k hk k' hk' heq
    have hk : k ∈ instanceNumbers p := by simpa [instanceNumbers] using hk
    have hk' : k' ∈ instanceNumbers p := by simpa [instanceNumbers] using hk'
    rw [← (hholder k hk).2, heq, (hholder k' hk').2]
  have hcard := Finset.card_le_card_of_injOn holder hmaps hinj
  rw [Finset.card_range, Finset.card_erase_of_mem (Finset.mem_range.2 hi), Finset.card_range] at hcard
  omega

theorem Round.active_of_started {m : Nat} (r : Round p e b m b') (h : b.Exclusive p)
    (hm : m ≤ p.slots.length) (hlen : p.slots.length ≤ (instanceNumbers p).length) (hj : j < m)
    (hidle : b.active j = false) (hstarted : e.high (.slot j .started) = true) :
    b'.active j = true := by
  induction r with
  | start => omega
  | @turn i b' b'' r t ih =>
    by_cases hi : j = i
    · subst hi
      have hbefore := (r.active_eq (le_refl j)).trans hidle
      cases t with
      | grant => simp
      | idle _ hwait =>
        obtain ⟨k, hk, hfree⟩ := (r.exclusive h (by omega)).exists_free (by omega) hbefore hlen
        exact absurd (hwait hstarted k hk) (by simp [hfree])
      | serve hactive | drain hactive | free hactive => exact absurd hactive (by simp [hbefore])
    · rw [t.active_eq hi]
      exact ih (by omega) (by omega)

theorem runAll_serveAll (n : Names) (p : Proxy) (b : Board) :
    b.runAll e (n.serveAll p) =
      (List.range p.slots.length).foldl (fun b i ↦ b.run e (serveSlot p i)) b := by
  have hfrom (slots : List InvocationSlot) (first : Nat) (b : Board) :
      b.runAll e ((slots.zipIdx first).flatMap fun s ↦
        (if n.isVerbose then
            [.note ("slot " ++ toString s.2 ++ ": " ++ s.1.caller ++ " instance "
              ++ toString s.1.callerInstance.toNat ++ " slot " ++ toString s.1.slot.toNat)]
          else []) ++ [serveSlot p s.2]) =
        (List.range' first slots.length).foldl (fun b i ↦ b.run e (serveSlot p i)) b := by
    induction slots generalizing first b with
    | nil => simp
    | cons slot slots ih =>
      rw [List.zipIdx_cons, List.flatMap_cons, runAll_append, ih, List.length_cons,
        List.range'_succ, List.foldl_cons]
      congr 1
      dsimp only
      split <;> simp [run]
  rw [List.range_eq_range']
  exact hfrom p.slots 0 b

theorem round_serveAll (n : Names) (h : b.Exclusive p) :
    Round p e b p.slots.length (b.runAll e (n.serveAll p)) := by
  have hfirst (m : Nat) (hm : m ≤ p.slots.length) :
      Round p e b m ((List.range m).foldl (fun b i ↦ b.run e (serveSlot p i)) b) := by
    induction m with
    | zero => exact .start
    | succ m ih =>
      have r := ih (by omega)
      rw [List.range_succ, List.foldl_append]
      exact r.turn (turn_serveSlot fun hactive ↦
        ((r.exclusive h (by omega)).inRange m _ ⟨hactive, rfl⟩).2)
  rw [runAll_serveAll]
  exact hfirst _ (le_refl _)

theorem step_of_reset (n : Names) (he : e.reset = true) :
    ∃ ports : List Port, b.step n p e = { b with
      active := fun _ ↦ false
      busy := fun _ ↦ false
      drives := ports.map fun port ↦ (port, none) } := by
  rw [step, Names.arbitrate, run_ifElse]
  simp only [holds, he, if_true, resetAll, runAll_append, runAll_drives, runAll_cons, runAll_nil,
    driveAll_driveAll]
  refine ⟨(((instanceNumbers p).map fun k ↦ Port.unit k .started) ++
    (List.range p.slots.length).map fun i ↦ Port.slot i .finished).reverse, ?_⟩
  simp [run, setFlags, driveAll, Function.comp_def]

theorem step_of_running (n : Names) (h : b.Exclusive p) (he : e.reset = false) :
    Round p e { b with drives := [] } p.slots.length (b.step n p e) := by
  rw [step, Names.arbitrate, run_ifElse]
  simp only [holds, he, Bool.false_eq_true, if_false]
  exact round_serveAll n ⟨h.inRange, h.unique, h.busy_iff⟩

theorem Exclusive.step (h : b.Exclusive p) (n : Names) (e : Edge) :
    (b.step n p e).Exclusive p := by
  cases he : e.reset with
  | true =>
    obtain ⟨ports, heq⟩ := step_of_reset (b := b) (p := p) n he
    rw [heq]
    exact exclusive_of_clear (fun _ ↦ rfl) fun _ ↦ rfl
  | false =>
    exact (step_of_running n h he).exclusive ⟨h.inRange, h.unique, h.busy_iff⟩ (le_refl _)

theorem exclusive_foldl (n : Names) (edges : List Edge) (h : b.Exclusive p) :
    (edges.foldl (Board.step n p) b).Exclusive p := by
  induction edges generalizing b with
  | nil => exact h
  | cons e edges ih => exact ih (h.step n e)

theorem infix_indented (body : List Step) : body <:+: indented body :=
  ⟨[.indent], [.dedent], rfl⟩

/-- The process of a dispatcher never shares an instance, whatever it sees at the edges before one
and at this one. -/
theorem exclusive_after (n : Names) (p : Proxy) (edges : List Edge) (e : Edge) :
    n.sequential p (n.arbitrate p) <:+: n.dispatcher p ∧
      let before := after n p edges
      let board := after n p (edges ++ [e])
      (e.reset = true → ∀ i k, board.active i = false ∧ board.busy k = false) ∧
      (∀ i j, board.active i = true → board.active j = true → i ≠ j →
        board.assigned i ≠ board.assigned j) ∧
      (∀ k, board.busy k = true ↔ ∃ i < p.slots.length, board.active i = true ∧
        board.assigned i = k) ∧
      (∀ d ∈ board.drives, if e.reset then d.2 = none else ∃ j, before.Serves p e board j d) ∧
      (e.reset = false → ∀ i k pin, before.active i = false → board.active i = true →
        board.assigned i = k → pin ∈ inboundPins p →
          board.source? (.unit k pin) = some (some (.slot i pin))) ∧
      (p.slots.length ≤ (instanceNumbers p).length → e.reset = false → ∀ i < p.slots.length,
        before.active i = false → e.high (.slot i .started) = true → board.active i = true) := by
  have hbefore : (after n p edges).Exclusive p :=
    exclusive_foldl n edges (exclusive_of_clear (fun _ ↦ rfl) fun _ ↦ rfl)
  have hboard : after n p (edges ++ [e]) = (after n p edges).step n p e := by
    simp [after, List.foldl_append]
  have hafter := hbefore.step n e
  refine ⟨?_, ?_⟩
  · exact (infix_indented _).trans ((List.infix_append _ _ _).trans
      ((infix_indented _).trans (List.infix_append _ _ _)))
  simp only [hboard]
  refine ⟨fun he i k ↦ ?_, fun i j hi hj hne heq ↦ ?_, fun k ↦ ?_, fun d hd ↦ ?_, fun he i k pin
    hidle hi hk hpin ↦ ?_, fun hlen he i hi hidle hstarted ↦ ?_⟩
  · obtain ⟨ports, heq⟩ := step_of_reset (b := after n p edges) (p := p) n he
    rw [heq]
    exact ⟨rfl, rfl⟩
  · exact hne (hafter.unique i j _ ⟨hi, rfl⟩ ⟨hj, heq.symm⟩)
  · rw [hafter.busy_iff k]
    exact exists_congr fun i ↦ ⟨fun h ↦ ⟨(hafter.inRange i k h).1, h⟩, And.right⟩
  · split
    next he =>
      obtain ⟨ports, heq⟩ := step_of_reset (b := after n p edges) (p := p) n he
      rw [heq] at hd
      obtain ⟨port, -, rfl⟩ := List.mem_map.1 hd
      rfl
    next he =>
      have r := step_of_running n hbefore (Bool.eq_false_iff.2 he)
      obtain ⟨j, -, hj⟩ := (r.serves hd).resolve_left List.not_mem_nil
      exact ⟨j, hj⟩
  · exact (step_of_running n hbefore he).source?_eq ⟨hbefore.inRange, hbefore.unique,
      hbefore.busy_iff⟩ (le_refl _) hidle ⟨hi, hk⟩ hpin
  · exact (step_of_running n hbefore he).active_of_started ⟨hbefore.inRange, hbefore.unique,
      hbefore.busy_iff⟩ (le_refl _) hlen hi hidle hstarted

end Board

def pairedProxy : Proxy :=
  { target := "T", kind := .dispatcher, instanceCount := 2
    slots := [⟨"A", 0, 0⟩, ⟨"B", 0, 0⟩], parameters := [⟨"x", .signed 8⟩], returnType := none }

def Edge.asking (index : Nat) : Edge :=
  ⟨false, fun port ↦ port = .slot index .started⟩

/-- The first slot gives its instance back at the edge at which the second one takes it. -/
theorem exclusive_after_handedOver :
    let before := Board.after ⟨.compact, []⟩ pairedProxy [.asking 0]
    let board := Board.after ⟨.compact, []⟩ pairedProxy [.asking 0, .asking 1]
    (before.active 0 = true ∧ before.active 1 = false ∧ (Edge.asking 1).reset = false ∧
        pairedProxy.slots.length ≤ (instanceNumbers pairedProxy).length) ∧
      board.active 1 = true ∧ board.assigned 1 = 0 := by
  have hbefore : (Board.after ⟨.compact, []⟩ pairedProxy [.asking 0]).active 1 = false := by decide
  refine ⟨⟨by decide, hbefore, rfl, by decide⟩, ?_, by decide⟩
  exact (Board.exclusive_after ⟨.compact, []⟩ pairedProxy [.asking 0] (.asking 1)).2.2.2.2.2.2
    (by decide) rfl 1 (by decide) hbefore rfl

end Fabric.Vhdl
