import Fabric.Cache.ReadThrough
import Mathlib.Data.List.Basic

namespace Fabric.CacheStore

variable {σ ε : Type}

/-- A request with what it computes if it has to. -/
structure Request (ε : Type) where
  identity : String
  compute : Unit → Except ε Description

inductive History (store : CacheStore (StateM σ)) (start : σ) :
    List (String × Description) → σ → Prop
  | start : History store start [] start
  | load {saved : List (String × Description)} {s : σ} (identity : String) :
      History store start saved s → History store start saved ((store.load identity).run s).2
  | saved {saved : List (String × Description)} {s : σ} (identity : String) (d : Description) :
      History store start saved s → ((store.save identity d).run s).1 = .ok () →
        History store start ((identity, d) :: saved) ((store.save identity d).run s).2
  | failed {saved : List (String × Description)} {s : σ} (identity : String) (d : Description)
      (e : CacheError) :
      History store start saved s → ((store.save identity d).run s).1 = .error e →
        History store start saved ((store.save identity d).run s).2

/-- A store that loads only what was saved before under the same identity. -/
def Faithful (store : CacheStore (StateM σ)) (start : σ) : Prop :=
  ∀ saved s, History store start saved s → ∀ identity d,
    ((store.load identity).run s).1 = .ok (some d) → (identity, d) ∈ saved

/-- Requests one after another, with what is in flight before them and the state of the store. -/
def serve (store : CacheStore (StateM σ)) (rs : List (Request ε)) (flights : Flights) (s : σ) :
    Option (List (Served ε) × Flights) × σ :=
  ((rs.mapM fun r ↦ store.request r.identity r.compute).run flights).run.run s

/-- What a request does that no other one is in the way of. -/
inductive Leads (store : CacheStore (StateM σ)) (r : Request ε) (s : σ) : Served ε × σ → Prop
  | found (d : Description) (h : ((store.load r.identity).run s).1 = .ok (some d)) :
      Leads store r s (.found d, ((store.load r.identity).run s).2)
  | failed (e : ε) (h : r.compute () = .error e)
      (hmiss : ∀ d, ((store.load r.identity).run s).1 ≠ .ok (some d)) :
      Leads store r s (.failed e, ((store.load r.identity).run s).2)
  | made (d : Description) (h : r.compute () = .ok d)
      (hmiss : ∀ d, ((store.load r.identity).run s).1 ≠ .ok (some d)) :
      Leads store r s
        (.made d, ((store.save r.identity d).run ((store.load r.identity).run s).2).2)

theorem exists_leads (store : CacheStore (StateM σ)) (r : Request ε) (s : σ) :
    ∃ served, (store.lead r.identity r.compute).run s = served ∧ Leads store r s served := by
  refine ⟨_, rfl, ?_⟩
  have hmissed (hmiss : ∀ d, ((store.load r.identity).run s).1 ≠ .ok (some d))
      (served : Served ε × σ)
      (hfailed : ∀ e, r.compute () = .error e →
        served = (.failed e, ((store.load r.identity).run s).2))
      (hmade : ∀ d, r.compute () = .ok d → served = (.made d,
        ((store.save r.identity d).run ((store.load r.identity).run s).2).2)) :
      Leads store r s served := by
    cases hcompute : r.compute () with
    | error e =>
      rw [hfailed e hcompute]
      exact .failed e hcompute hmiss
    | ok d =>
      rw [hmade d hcompute]
      exact .made d hcompute hmiss
  rw [lead, StateT.run_bind]
  rcases hload : (store.load r.identity).run s with ⟨⟨e⟩ | ⟨_ | d⟩, s'⟩
  · rw [hload] at hmissed
    refine hmissed (fun d h ↦ by cases h) _ (fun e h ↦ ?_) (fun d h ↦ ?_)
    all_goals
      simp only [h]
      rfl
  · rw [hload] at hmissed
    refine hmissed (fun d h ↦ by cases h) _ (fun e h ↦ ?_) (fun d h ↦ ?_)
    all_goals
      simp only [h]
      rfl
  · have hfound : Leads store r s (.found d, ((store.load r.identity).run s).2) :=
      .found d (by rw [hload])
    rwa [hload] at hfound

theorem run_request (store : CacheStore (StateM σ)) (r : Request ε) {flights : Flights} (s : σ)
    (h : r.identity ∉ flights) :
    ((store.request r.identity r.compute).run flights).run.run s =
      (some (((store.lead r.identity r.compute).run s).1, flights),
        ((store.lead r.identity r.compute).run s).2) := by
  simp only [request]
  simp [h]
  rfl

def leadAll (store : CacheStore (StateM σ)) : List (Request ε) → σ → List (Served ε) × σ
  | [], s => ([], s)
  | r :: rs, s =>
    let first := (store.lead r.identity r.compute).run s
    let rest := leadAll store rs first.2
    (first.1 :: rest.1, rest.2)

theorem serve_eq (store : CacheStore (StateM σ)) (rs : List (Request ε)) (s : σ) :
    store.serve rs [] s = (some ((store.leadAll rs s).1, []), (store.leadAll rs s).2) := by
  induction rs generalizing s with
  | nil => rfl
  | cons r rs ih =>
    have hfirst := store.run_request r s (List.not_mem_nil (a := r.identity))
    have hrest := ih ((store.lead r.identity r.compute).run s).2
    unfold serve at hrest ⊢
    rw [List.mapM_cons]
    simp only [StateT.run_bind, OptionT.run_bind, Option.elimM, hfirst]
    change StateT.run (Option.elim (some _) _ _) _ = _
    rw [Option.elim_some, StateT.run_bind, hrest]
    rfl

theorem leadAll_append (store : CacheStore (StateM σ)) (rs rs' : List (Request ε)) (s : σ) :
    store.leadAll (rs ++ rs') s =
      ((store.leadAll rs s).1 ++ (store.leadAll rs' (store.leadAll rs s).2).1,
        (store.leadAll rs' (store.leadAll rs s).2).2) := by
  induction rs generalizing s with
  | nil => rfl
  | cons r rs ih => simp [leadAll, ih]

theorem length_leadAll (store : CacheStore (StateM σ)) (rs : List (Request ε)) (s : σ) :
    (store.leadAll rs s).1.length = rs.length := by
  induction rs generalizing s with
  | nil => rfl
  | cons r rs ih => simp [leadAll, ih]

theorem History.lead {store : CacheStore (StateM σ)} {start s : σ}
    {saved : List (String × Description)} (h : History store start saved s) (r : Request ε) :
    ∃ saved', History store start saved' ((store.lead r.identity r.compute).run s).2 ∧
      ∀ x ∈ saved', x ∈ saved ∨ ∃ d, ((store.lead r.identity r.compute).run s).1 = .made d ∧
        r.compute () = .ok d ∧ x = (r.identity, d) := by
  obtain ⟨served, heq, hleads⟩ := store.exists_leads r s
  rw [heq]
  cases hleads with
  | found d | failed e => exact ⟨saved, h.load _, fun x hx ↦ .inl hx⟩
  | made d hcompute =>
    cases hsave : ((store.save r.identity d).run ((store.load r.identity).run s).2).1 with
    | error e => exact ⟨saved, (h.load _).failed _ d e hsave, fun x hx ↦ .inl hx⟩
    | ok =>
      refine ⟨_, (h.load _).saved _ d hsave, fun x hx ↦ ?_⟩
      rcases List.mem_cons.1 hx with rfl | hx
      · exact .inr ⟨d, rfl, hcompute, rfl⟩
      · exact .inl hx

theorem History.leadAll {store : CacheStore (StateM σ)} {start s : σ}
    {saved : List (String × Description)} (h : History store start saved s)
    (rs : List (Request ε)) :
    ∃ saved', History store start saved' (store.leadAll rs s).2 ∧
      ∀ x ∈ saved', x ∈ saved ∨ ∃ q d, (q, .made d) ∈ rs.zip (store.leadAll rs s).1 ∧
        q.compute () = .ok d ∧ x = (q.identity, d) := by
  induction rs generalizing s saved with
  | nil => exact ⟨saved, h, fun x hx ↦ .inl hx⟩
  | cons r rs ih =>
    obtain ⟨saved₁, h₁, hfirst⟩ := h.lead r
    obtain ⟨saved₂, h₂, hrest⟩ := ih h₁
    refine ⟨saved₂, h₂, fun x hx ↦ ?_⟩
    rcases hrest x hx with hx | ⟨q, d, hq, hd⟩
    · rcases hfirst x hx with hx | ⟨d, hmade, hd⟩
      · exact .inl hx
      · exact .inr ⟨r, d, by simp [CacheStore.leadAll, hmade], hd⟩
    · exact .inr ⟨q, d, List.mem_cons_of_mem _ hq, hd⟩

theorem faithful_memory : Faithful memory .empty := by
  have hget {saved : List (String × Description)} {entries : Dictionary Description}
      (h : History memory .empty saved entries) :
      ∀ identity d, entries.get? identity = some d → (identity, d) ∈ saved := by
    induction h with
    | start => nofun
    | load identity _ ih => exact ih
    | @saved saved entries identity d h _ ih =>
      intro key d' hd
      replace hd : (entries.insert identity d).get? key = some d' := hd
      rw [Dictionary.get?_insert] at hd
      split at hd
      next heq => rw [heq, Option.some.inj hd]; exact List.mem_cons_self
      next => exact List.mem_cons_of_mem _ (ih key d' hd)
    | failed identity d e _ herror => exact nomatch herror
  intro saved entries h identity d hload
  exact hget h identity d (Except.ok.inj hload)

theorem get?_lead {entries : Dictionary Description} {identity : String} {d : Description}
    (h : entries.get? identity = some d) (r : Request ε) :
    ((memory.lead r.identity r.compute).run entries).2.get? identity = some d ∧
      (r.identity = identity → ((memory.lead r.identity r.compute).run entries).1 = .found d) := by
  obtain ⟨served, heq, hleads⟩ := memory.exists_leads r entries
  rw [heq]
  cases hleads with
  | found d' hd' =>
    refine ⟨h, ?_⟩
    rintro rfl
    rw [Option.some.inj (h.symm.trans (Except.ok.inj hd'))]
  | failed e _ hmiss =>
    refine ⟨h, ?_⟩
    rintro rfl
    exact absurd (congrArg Except.ok h) (hmiss d)
  | made d' _ hmiss =>
    have hne : r.identity ≠ identity := by
      rintro rfl
      exact hmiss d (congrArg Except.ok h)
    refine ⟨?_, fun heq ↦ absurd heq hne⟩
    exact (Dictionary.get?_insert entries r.identity identity d').trans
      ((if_neg hne.symm).trans h)

theorem get?_leadAll {entries : Dictionary Description} {identity : String} {d : Description}
    (h : entries.get? identity = some d) (rs : List (Request ε)) :
    (memory.leadAll rs entries).2.get? identity = some d := by
  induction rs generalizing entries with
  | nil => exact h
  | cons r rs ih => exact ih (get?_lead h r).1

/-- What the first request for an identity that succeeds is answered with. -/
def firstAnswer (identity : String) (answered : List (Request ε × Served ε)) :
    Option Description :=
  answered.findSome? fun (q, a) ↦ if q.identity = identity then a.result.toOption else none

theorem get?_of_result {entries : Dictionary Description} {r : Request ε} {d : Description}
    (h : ((memory.lead r.identity r.compute).run entries).1.result = .ok d) :
    ((memory.lead r.identity r.compute).run entries).2.get? r.identity = some d := by
  obtain ⟨served, heq, hleads⟩ := memory.exists_leads r entries
  rw [heq] at h ⊢
  cases hleads with
  | found d' hd' =>
    rw [← Except.ok.inj h]
    exact Except.ok.inj hd'
  | failed => exact nomatch h
  | made d' =>
    rw [← Except.ok.inj h]
    exact (Dictionary.get?_insert entries r.identity r.identity d').trans (if_pos rfl)

theorem get?_of_firstAnswer {entries : Dictionary Description} {identity : String}
    {rs : List (Request ε)} {d : Description}
    (h : firstAnswer identity (rs.zip (memory.leadAll rs entries).1) = some d) :
    (memory.leadAll rs entries).2.get? identity = some d := by
  induction rs generalizing entries with
  | nil => exact nomatch h
  | cons r rs ih =>
    simp only [firstAnswer, leadAll, List.zip_cons_cons, List.findSome?_cons] at h
    split at h
    next d' hfirst =>
      obtain rfl := Option.some.inj h
      split at hfirst
      next heq =>
        subst heq
        refine get?_leadAll (get?_of_result ?_) rs
        revert hfirst
        cases ((memory.lead r.identity r.compute).run entries).1.result with
        | error e => nofun
        | ok d'' =>
          rintro ⟨⟩
          rfl
      next => exact nomatch hfirst
    next => exact ih h

/-- Requests one after another are all answered and leave nothing in flight. Each has the answer of
an earlier computation for its identity or the outcome of its own; if this is an error, nothing is
saved. A store in memory makes all requests after the first successful one find its answer. -/
theorem serve_append (ε : Type) :
    (∀ (σ : Type) (store : CacheStore (StateM σ)) (start : σ), store.Faithful start →
      ∀ (before : List (Request ε)) (r : Request ε), ∃ answers s answer s',
        store.serve before [] start = (some (answers, []), s) ∧
        store.serve (before ++ [r]) [] start = (some (answers ++ [answer], []), s') ∧
        answers.length = before.length ∧
        ((∃ q d, (q, .made d) ∈ before.zip answers ∧ q.identity = r.identity ∧
            q.compute () = .ok d ∧ answer = .found d) ∨
          answer.isComputed = true ∧ answer.result = r.compute () ∧
            ∀ e, r.compute () = .error e → s' = ((store.load r.identity).run s).2)) ∧
    ∀ (entries : Dictionary Description) (before : List (Request ε)) (r : Request ε),
      ∃ answers answer entries',
        memory.serve (before ++ [r]) [] entries = (some (answers ++ [answer], []), entries') ∧
        answers.length = before.length ∧
        ∀ d, firstAnswer r.identity (before.zip answers) = some d → answer = .found d := by
  refine ⟨fun σ store start hfaithful before r ↦ ?_, fun entries before r ↦ ?_⟩
  · obtain ⟨served, heq, hleads⟩ := store.exists_leads r (store.leadAll before start).2
    refine ⟨_, _, served.1, served.2, store.serve_eq before start, ?_,
      store.length_leadAll before start, ?_⟩
    · rw [serve_eq, leadAll_append, ← heq]
      rfl
    · have hstart : History store start [] start := .start
      obtain ⟨saved, hhistory, hsaved⟩ := hstart.leadAll before
      cases hleads with
      | found d hd =>
        have hmem := hfaithful saved _ hhistory r.identity d hd
        obtain ⟨q, d', hq, hcompute, hpair⟩ := (hsaved _ hmem).resolve_left List.not_mem_nil
        obtain ⟨hidentity, rfl⟩ := Prod.mk.inj hpair
        exact .inl ⟨q, d, hq, hidentity.symm, hcompute, rfl⟩
      | failed e hcompute => exact .inr ⟨rfl, hcompute.symm, fun _ _ ↦ rfl⟩
      | made d hcompute =>
        exact .inr ⟨rfl, hcompute.symm, fun e he ↦ nomatch hcompute.symm.trans he⟩
  · let last := (memory.lead r.identity r.compute).run (memory.leadAll before entries).2
    refine ⟨_, last.1, last.2, ?_, memory.length_leadAll before entries, fun d hd ↦ ?_⟩
    · rw [serve_eq, leadAll_append]
      rfl
    · exact (get?_lead (get?_of_firstAnswer hd) r).2 rfl

def retried (d : Description) : List (Request String) :=
  [⟨"a", fun _ ↦ .error "interrupted"⟩, ⟨"a", fun _ ↦ .ok d⟩]

/-- A third request finds what the second one has made, although its own computation would fail. -/
theorem serve_append_retried :
    let d : Description := ⟨"a", "", ⟨"", ⟨0⟩, [], 0⟩, ⟨[], [], ⟨[]⟩, []⟩⟩
    let last : Request String := ⟨"a", fun _ ↦ .error "interrupted"⟩
    Faithful memory .empty ∧
      firstAnswer "a" ((retried d).zip [.failed "interrupted", .made d]) = some d ∧
      ∃ entries, memory.serve (retried d ++ [last]) [] .empty =
        (some ([.failed "interrupted", .made d, .found d], []), entries) := by
  intro d last
  refine ⟨faithful_memory, rfl, ?_⟩
  obtain ⟨answers, answer, entries, hserve, hlength, hanswer⟩ :=
    (serve_append String).2 .empty (retried d) last
  have hbefore : answers = [.failed "interrupted", .made d] := by
    have hrun : (memory.serve (retried d ++ [last]) [] .empty).1 =
        some ([.failed "interrupted", .made d] ++ [.found d], []) := rfl
    rw [hserve, Option.some_inj, Prod.mk.injEq] at hrun
    exact (List.append_inj hrun.1 hlength).1
  subst hbefore
  rw [hanswer d rfl] at hserve
  exact ⟨entries, hserve⟩

end Fabric.CacheStore
