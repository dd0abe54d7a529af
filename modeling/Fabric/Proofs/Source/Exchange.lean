import Fabric.Proofs.Construction.Batch
import Fabric.Proofs.Machine.Service
import Fabric.Proofs.Source.Knowledge

namespace Fabric

variable {V ι : Type} {I : Interpretation V} {M : Machine ι}

theorem pinnedOn_of_notMem {entries : List (String × V)} {x : String}
    (hx : x ∉ entries.map Prod.fst) (f : String → Option V) : pinnedOn f entries x = f x := by
  induction entries generalizing f with
  | nil => rfl
  | cons p rest ih =>
    rw [List.map_cons, List.mem_cons, not_or] at hx
    exact (ih hx.2 _).trans (if_neg hx.1)

theorem mem_of_pinned {entries : List (String × V)} {x : String} (h : pinned entries x ≠ none) :
    x ∈ entries.map Prod.fst := by
  by_contra hx
  exact h (pinnedOn_of_notMem hx _)

/-- A memory in which no slot is in use: all start signals are down, and on the pins of a slot there
are values of parameters of its member only. -/
structure Memory.Rests (I : Interpretation V) (p : Program) (m : Memory V) : Prop where
  lowered : ∀ target slot, m.raised I target slot = false
  clear : ∀ h ∈ p.tree.handles, ∀ slot name,
    m.arguments (p.tree.memberFullName h) slot name ≠ none →
      name ∈ (p.tree.method h).parameters.map Parameter.name

/-- A call through a slot makes the invocation of an expression: from now on its arguments have the
right values. -/
structure Invocation.Makes (I : Interpretation V) (l : Lowering) (w : World V) (n : Nat)
    (values : String → V) (e : Expr) (c : Invocation) : Prop where
  member : ∃ h ∈ l.program.tree.handles, l.program.tree.memberFullName h = c.target ∧
    c.arguments.map Prod.fst = (l.program.tree.method h).parameters.map Parameter.name
  invoked : ∃ entries : List (String × V),
    (∀ inputs values', AgreeBelow n values values' →
      (c.arguments.map fun a ↦ (a.1, a.2.eval I inputs values')) = entries) ∧
    e.own I l.program.tree w = {(c.target, pinned entries)} ∧
    e.truth I l.program.tree w = w.result (c.target, pinned entries)

section

variable {l : Lowering} {w : World V} {n n' : Nat} {values values' : String → V} {e : Expr}
  {c : Invocation}

theorem Invocation.Makes.mono (h : c.Makes I l w n values e) (hle : n ≤ n')
    (hagree : AgreeBelow n values values') : c.Makes I l w n' values' e := by
  obtain ⟨entries, hsame, hinvoked⟩ := h.invoked
  exact ⟨h.member, entries, fun inputs _ h' ↦ hsame inputs _ (hagree.trans hle h'), hinvoked⟩

/-- The values of the arguments are those that are invoked with. -/
theorem Invocation.Makes.own (h : c.Makes I l w n values e) (inputs : SignalRef → V) :
    e.own I l.program.tree w =
        {(c.target, pinned (c.arguments.map fun a ↦ (a.1, a.2.eval I inputs values)))} ∧
      e.truth I l.program.tree w =
        w.result (c.target, pinned (c.arguments.map fun a ↦ (a.1, a.2.eval I inputs values))) := by
  obtain ⟨entries, hsame, hinvoked⟩ := h.invoked
  rw [hsame inputs values (.refl n values)]
  exact hinvoked

end

namespace Memory

/-- What reading the results of calls changes: temporaries from a number on get values, and the start
signals go down. -/
structure Drops (I : Interpretation V) (n : Nat) (calls : List Invocation) (m m' : Memory V) :
    Prop where
  values : AgreeBelow n m.values m'.values
  started : m'.started = m.started
  arguments : ∀ target slot, m'.arguments target slot = m.arguments target slot
  lowered : ∀ target slot, m.raised I target slot = false ∨
    (target, slot) ∈ calls.map Invocation.place → m'.raised I target slot = false

variable {m m' : Memory V} {calls : List Invocation} {entries : Invocation → List (String × V)}
  {n : Nat}

theorem Drops.refl (n : Nat) (m : Memory V) : m.Drops I n [] m := by
  refine ⟨.refl n _, rfl, fun _ _ ↦ rfl, fun target slot h ↦ h.resolve_right ?_⟩
  exact List.not_mem_nil

theorem Drops.cons (hI : I.IsBoolean) {c : Invocation} {m₁ : Memory V} (value : V)
    (hm : m₁ = (m.setVariable (tempName n) value).drive I (c.pin .started) (I.bool false))
    (h : m₁.Drops I (n + 1) calls m') : m.Drops I n (c :: calls) m' := by
  subst hm
  have hsignal (target : String) (slot : UInt32) :
      SignalRef.invocation target slot .started = c.pin .started ↔ (target, slot) = c.place := by
    simp [Invocation.pin, Invocation.place]
  refine ⟨(AgreeBelow.set m le_rfl value).trans (Nat.le_succ n) h.values, ?_,
    fun target slot ↦ ?_, fun target slot hor ↦ h.lowered target slot ?_⟩
  · refine h.started.trans ?_
    simp [drive, Invocation.pin, hI.truth, setVariable]
  · refine (h.arguments target slot).trans ?_
    funext name
    refine drive_other _ _ ?_
    simp [Invocation.pin]
  · rw [List.map_cons, List.mem_cons] at hor
    by_cases hplace : (target, slot) = c.place
    · left
      rw [raised, (hsignal target slot).2 hplace]
      simp [drive, hI.truth]
    · refine (hor.imp_right fun hor ↦ hor.resolve_left hplace).imp_left fun hdown ↦ ?_
      rw [raised, drive_other _ _ fun heq ↦ hplace ((hsignal target slot).1 heq)]
      exact hdown

def Fills (p : Program) (entries : Invocation → List (String × V)) (c : Invocation) : Prop :=
  ∃ h ∈ p.tree.handles, p.tree.memberFullName h = c.target ∧
    (entries c).map Prod.fst = (p.tree.method h).parameters.map Parameter.name

theorem Rests.isClear {p : Program} (hm : m.Rests I p) {c : Invocation} (hc : Fills p entries c) :
    m.Clear entries c := by
  obtain ⟨h, hh, htarget, hentries⟩ := hc
  intro name hne
  rw [hentries]
  rw [← htarget] at hne
  exact hm.clear h hh c.slot name hne

theorem Rests.congr {p : Program} (hm : m.Rests I p) (h : m'.driven = m.driven) : m'.Rests I p := by
  refine ⟨fun target slot ↦ ?_, fun k hk slot name hne ↦ hm.clear k hk slot name ?_⟩
  · rw [raised, h]
    exact hm.lowered target slot
  · rwa [arguments, h] at hne

theorem Rests.exchange {p : Program} (hm : m.Rests I p) (hnames : p.NamesDistinct)
    (hn : (calls.map Invocation.place).Nodup) (hfills : ∀ c ∈ calls, Fills p entries c)
    (h : (m.startAll I entries calls).Drops I n calls m') : m'.Rests I p := by
  refine ⟨fun target slot ↦ h.lowered target slot ?_, fun k hk slot name hne ↦ ?_⟩
  · by_cases hplace : (target, slot) ∈ calls.map Invocation.place
    · exact .inr hplace
    · left
      rw [raised, driven_startAll hplace]
      exact hm.lowered target slot
  · rw [h.arguments] at hne
    by_cases hplace : (p.tree.memberFullName k, slot) ∈ calls.map Invocation.place
    · obtain ⟨c, hc, heq⟩ := List.mem_map.1 hplace
      obtain ⟨htarget, rfl⟩ := Prod.mk.inj heq
      obtain ⟨k', hk', hname, hentries⟩ := hfills c hc
      obtain rfl := hnames.inj hk' hk (hname.trans htarget)
      rw [← htarget, arguments_startAll hn (fun c hc ↦ hm.isClear (hfills c hc)) hc] at hne
      rw [← hentries]
      exact mem_of_pinned hne
    · refine hm.clear k hk slot name ?_
      rwa [arguments, driven_startAll hplace] at hne

/-- From one memory to another invocations are made, and of the variables only temporaries from a
number on change. -/
structure Performs (I : Interpretation V) (p : Program) (n : Nat) (made : Multiset (Started V))
    (m m' : Memory V) : Prop where
  values : AgreeBelow n m.values m'.values
  rests : m'.Rests I p
  started : (m'.started : Multiset (Started V)) = m.started + made

namespace Performs

variable {p : Program} {n' : Nat} {made made' : Multiset (Started V)} {m'' : Memory V}

theorem ofComputes (hm : m.Rests I p) (h : m.Computes n m') : m.Performs I p n 0 m' :=
  ⟨h.values, hm.congr h.driven, by rw [h.started, add_zero]⟩

theorem mono (h : m.Performs I p n' made m') (hle : n ≤ n') : m.Performs I p n made m' :=
  ⟨h.values.mono hle, h.rests, h.started⟩

theorem trans (h : m.Performs I p n made m') (hle : n ≤ n') (h' : m'.Performs I p n' made' m'') :
    m.Performs I p n (made + made') m'' :=
  ⟨h.values.trans hle h'.values, h'.rests, by rw [h'.started, h.started, add_assoc]⟩

end Performs

end Memory

namespace Draft

variable {ids : List NodeId} {d : Draft}

theorem Extends.push (d : Draft) (s : HwStmt) : d.Extends ids (d.push s) :=
  .ofScope ⟨rfl, rfl, rfl, rfl, rfl, rfl⟩ rfl

def collectOne (d : Draft) (c : Invocation) : Draft :=
  ((d.temporary .boolean ("result of " ++ c.target)).2.push
    (.setVariable (tempName d.temporaries) (.signal (c.pin .result)))).push
      (.drive (c.pin .started) (.bool false))

theorem collect_cons {c : Invocation} (hc : c.returnType = some .boolean) (calls : List Invocation)
    (d : Draft) : collect (c :: calls) d =
      (some (.ofVariable (tempName d.temporaries) .boolean) :: (collect calls (d.collectOne c)).1,
        (collect calls (d.collectOne c)).2) := by
  simp only [collect, hc]
  rfl

theorem Extends.collectOne (d : Draft) (c : Invocation) : d.Extends ids (d.collectOne c) :=
  ((Extends.temporary d .boolean _).trans (.push _ _)).trans (.push _ _)

theorem Extends.collect {calls : List Invocation} (h : ∀ c ∈ calls, c.returnType = some .boolean)
    (d : Draft) : d.Extends ids (Draft.collect calls d).2 := by
  induction calls generalizing d with
  | nil => exact .refl ids d
  | cons c rest ih =>
    obtain ⟨hc, hrest⟩ := List.forall_mem_cons.1 h
    rw [collect_cons hc]
    exact (Extends.collectOne d c).trans (ih hrest _)

theorem collect_logic {calls : List Invocation} (h : ∀ c ∈ calls, c.returnType = some .boolean)
    (d : Draft) : ∀ r ∈ (collect calls d).1, ∃ v, r = some v ∧ v.type = .boolean := by
  induction calls generalizing d with
  | nil => exact List.forall_mem_nil _
  | cons c rest ih =>
    obtain ⟨hc, hrest⟩ := List.forall_mem_cons.1 h
    rw [collect_cons hc]
    exact List.forall_mem_cons.2 ⟨⟨_, rfl, rfl⟩, ih hrest _⟩

theorem Extends.handshake {calls : List Invocation}
    (h : ∀ c ∈ calls, c.returnType = some .boolean) (d : Draft) :
    d.Extends ids (d.handshake calls).2 := by
  obtain ⟨label, heq⟩ := d.handshake_eq calls
  rw [heq]
  have hopen : d.Extends ids (d.openState (label "await idle")) :=
    .ofScope (d.sameScope_openState _) (d.temporaries_openState _)
  exact (hopen.trans (.ofScope (sameScope_awaitCalls _ calls label) rfl)).trans (.collect h _)

theorem handshake_logic {calls : List Invocation} (h : ∀ c ∈ calls, c.returnType = some .boolean)
    (d : Draft) : ∀ r ∈ (d.handshake calls).1, ∃ v, r = some v ∧ v.type = .boolean := by
  obtain ⟨label, heq⟩ := d.handshake_eq calls
  rw [heq]
  exact collect_logic h _

theorem looseExits_collect {calls : List Invocation}
    (h : ∀ c ∈ calls, c.returnType = some .boolean) (d : Draft) :
    (collect calls d).2.looseExits = d.looseExits := by
  induction calls generalizing d with
  | nil => rfl
  | cons c rest ih =>
    obtain ⟨hc, hrest⟩ := List.forall_mem_cons.1 h
    rw [collect_cons hc]
    exact ih hrest _

/-- The states of a batch of calls that starts from an empty state. -/
theorem Proper.exchange {Γ : Interface} {L : Multiset Nat} (hd : d.Proper Γ L)
    (ho : d.isClosed = false) {b : Block} (hb : d.code[d.current]? = some b) (hbody : b.body = [])
    {calls : List Invocation} (hne : calls ≠ [])
    (hvalue : ∀ c ∈ calls, c.returnType = some .boolean) (hsound : ∀ c ∈ calls, c.Sound Γ)
    (hplaces : (calls.map Invocation.place).Nodup) (label : String → String) :
    let d' := (Draft.collect calls (d.awaitCalls calls label)).2
    Γ.Covers d' → d.Before L d' L ∧ ∃ E, (d'.site (d'.looseExits + L) 0 E).Holds Γ
      ⟨d.current, d.code.length, calls⟩ := by
  intro d' hc
  obtain ⟨body, hcollects, hsite⟩ := exists_site_collect (Γ := Γ)
    (List.getElem?_eq_some_iff.1 hb).1 calls label
  have hexits : d'.looseExits = d.looseExits :=
    (looseExits_collect hvalue _).trans (d.sameScope_awaitCalls calls label).looseExits
  obtain ⟨E, hg⟩ := hd.valid
  rw [site, ho] at hg
  have hmove := Move.exchange (L := d.looseExits + L) (R := 0) (E := E) hb hbody hne hsound
    (fun _ ↦ hplaces) (hcollects hc)
  have hholds := Move.holds_exchange hg hb hbody hsound (fun _ ↦ hplaces) (hcollects hc)
  rw [← hsite] at hmove hholds
  have hmoves : Moves Γ (d.site (d.looseExits + L) 0 E) (d'.site (d.looseExits + L) 0 E) := by
    rw [site, ho]
    exact .single hmove
  rw [Before, hexits]
  refine ⟨.ofMoves hmoves ?_, E, hholds⟩
  rw [site, ho]
  exact hg

end Draft

namespace Execution

variable {x : Execution I M} {name : DraftTarget → ι} {t : Nat} {d : Draft} {m : Memory V}

theorem Stands.collect (hI : I.IsBoolean) (hs : x.Stands name t d m) {calls : List Invocation}
    (hvalue : ∀ c ∈ calls, c.returnType = some .boolean) {truth : Invocation → Bool}
    (hresult : ∀ c ∈ calls, x.inputs t (c.pin .result) = I.bool (truth c)) :
    ∃ m', x.Stands name t (Draft.collect calls d).2 m' ∧ m.Drops I d.temporaries calls m' ∧
      List.Forall₂ (fun c r ↦ ∃ v : Lowered, r = some v ∧
        v.expr.Yields I (Draft.collect calls d).2.temporaries m'.values (truth c))
        calls (Draft.collect calls d).1 := by
  induction calls generalizing d m with
  | nil => exact ⟨m, hs, .refl _ m, .nil⟩
  | cons c rest ih =>
    obtain ⟨hc, hrest⟩ := List.forall_mem_cons.1 hvalue
    obtain ⟨hcresult, hresults⟩ := List.forall_mem_cons.1 hresult
    have hone : x.Stands name t (d.collectOne c) ((m.setVariable (tempName d.temporaries)
        (I.bool (truth c))).drive I (c.pin .started) (I.bool false)) := by
      rw [← hcresult]
      have htemp : x.Stands name t (d.temporary .boolean ("result of " ++ c.target)).2 m :=
        hs.of_site fun _ _ _ ↦ rfl
      exact (htemp.push _).push _
    have hkeeps : (d.collectOne c).Extends [] (Draft.collect rest (d.collectOne c)).2 :=
      .collect hrest _
    obtain ⟨m', hs', hdrops, hvalues⟩ := ih hone hrest hresults
    rw [Draft.collect_cons hc]
    refine ⟨m', hs', .cons hI _ rfl hdrops, .cons ⟨_, rfl, .temporary ?_ ?_⟩ hvalues⟩
    · exact (Nat.lt_succ_self _).trans_le hkeeps.temporaries
    · refine (hdrops.values _ fun k hk heq ↦ ?_).trans (if_pos rfl)
      have heq := tempName_inj heq
      have hk : d.temporaries + 1 ≤ k := hk
      omega

/-- Control passes through the states of a batch of calls, which are in the finished machine as they
were made. -/
theorem Enters.handshake {z d' : Draft} {Γ : Interface} {L : Multiset Nat} {E : Set Nat} {w : World V}
    (hI : I.IsBoolean) (hM : M.Realizes name z.code) {calls : List Invocation}
    (hserves : ∀ c ∈ calls, x.Serves w c.target c.slot)
    (hplaces : (calls.map Invocation.place).Nodup) (hlt : d.current < d.code.length)
    (hholds : (d'.site (d'.looseExits + L) 0 E).Holds Γ ⟨d.current, d.code.length, calls⟩)
    (hz : d'.KeptIn L z) (hdown : ∀ c ∈ calls, m.raised I c.target c.slot = false)
    {entries : Invocation → List (String × V)}
    (hentries : ∀ c ∈ calls, ∀ inputs,
      (c.arguments.map fun a ↦ (a.1, a.2.eval I inputs m.values)) = entries c)
    (h : x.Enters name t (.state d.current) m) (label : String → String) :
    ∃ t', x.Works name t t' ∧
      x.Stands name t' (d.awaitCalls calls label) (m.startAll I entries calls) ∧
      ∀ c ∈ calls, x.inputs t' (c.pin .result) = I.bool (w.result
        (c.target, (m.startAll I entries calls).arguments c.target c.slot)) := by
  have hkept {i : Nat} (hi : i ∈ [d.current, d.code.length, d.code.length + 1]) {b : Block}
      (hb : d'.code[i]? = some b) : z.code[i]? = some b := by
    obtain ⟨hmem, hopen⟩ := hholds.fixed i hi
    rw [Draft.site, add_zero] at hmem
    have hlt := (List.getElem?_eq_some_iff.1 hb).1
    rw [d'.length_code] at hlt
    exact (hz i hlt ⟨hmem, hopen⟩).trans hb
  obtain ⟨t', -, hworks, henters, hresults⟩ := h.exchange hI hM hserves
    (hkept (by simp) hholds.ready) rfl rfl (hkept (by simp) hholds.start)
    (hkept (by simp) hholds.await) hplaces hdown hentries
  refine ⟨t', hworks, ?_, hresults⟩
  refine Enters.stands (b := ⟨.state (d.code.length + 2), [], .goto .finished⟩) ?_ rfl ?_ rfl
  · rw [Draft.current_awaitCalls]
    exact henters
  · rw [Draft.current_awaitCalls, Draft.code_awaitCalls hlt,
      List.getElem?_append_right (by simp), Code.length_redirect, Nat.add_sub_cancel_left]
    rfl

namespace Carries

variable {z : Draft} {Γ : Interface} {l : Lowering} {w : World V} {calls : List Invocation}

theorem handshake (hI : I.IsBoolean) (hM : M.Realizes name z.code)
    (hserves : ∀ target slot, Γ.HasSlot target slot → x.Serves w target slot)
    (hnames : l.program.NamesDistinct) (ho : d.isClosed = false) (hne : calls ≠ [])
    (hplaces : (calls.map Invocation.place).Nodup)
    (hvalue : ∀ c ∈ calls, c.returnType = some .boolean) (es : List Expr) :
    x.Carries name z Γ (∀ c ∈ calls, c.Sound Γ) d (d.handshake calls).2
      (∀ v, some v ∈ (d.handshake calls).1 → v.Typed Γ)
      (fun m ↦ m.Rests I l.program ∧
        List.Forall₂ (fun e c ↦ c.Makes I l w d.temporaries m.values e) es calls)
      fun m m' ↦
        m.Performs I l.program d.temporaries (es.map (Expr.own I l.program.tree w)).sum m' ∧
        List.Forall₂ (fun e r ↦ ∃ v : Lowered, r = some v ∧
          v.expr.Yields I (d.handshake calls).2.temporaries m'.values (e.truth I l.program.tree w))
          es (d.handshake calls).1 where
  reaches := by
    refine .ofPlainly (d.isClosed_handshake calls) ((Draft.evolves_handshake ho hne).conseq ?_ ?_)
    · exact fun hP ↦ ⟨hP.1, hP.2, fun _ ↦ hplaces⟩
    · exact fun _ h ↦ h
  follows hsound L t m hd hc hz hs hm := by
    obtain ⟨hrests, hmakes⟩ := hm
    obtain ⟨label, heq⟩ := d.handshake_eq calls
    rw [heq] at hc hz ⊢
    obtain ⟨hd₀, -⟩ := hd.openState ho (label "await idle")
    obtain ⟨E, hg⟩ := hd.valid
    obtain ⟨b, hb, hbody⟩ := Draft.body_openState hg ho (label "await idle")
    have hlt := (List.getElem?_eq_some_iff.1 hb).1
    obtain ⟨hbefore, E', hholds⟩ := hd₀.exchange (Draft.isClosed_openState ho _) hb hbody hne hvalue
      hsound hplaces label hc
    obtain ⟨t₁, hworks₁, henters₁⟩ := hs.openState hM hd.valid (hbefore.keptIn hz)
    let entries (c : Invocation) : List (String × V) :=
      c.arguments.map fun a ↦ (a.1, a.2.eval I (x.inputs 0) m.values)
    have hcall {c : Invocation} (hc : c ∈ calls) : ∃ e, c.Makes I l w d.temporaries m.values e := by
      obtain ⟨e, -, he⟩ := exists_of_mem_forall₂ hmakes hc
      exact ⟨e, he⟩
    have hentries (c) (hc : c ∈ calls) (inputs : SignalRef → V) :
        (c.arguments.map fun a ↦ (a.1, a.2.eval I inputs m.values)) = entries c := by
      obtain ⟨e, he⟩ := hcall hc
      obtain ⟨entries', hsame, -⟩ := he.invoked
      rw [hsame inputs _ (.refl _ _), ← hsame (x.inputs 0) _ (.refl _ _)]
    have hfills (c) (hc : c ∈ calls) : Memory.Fills l.program entries c := by
      obtain ⟨e, he⟩ := hcall hc
      obtain ⟨h, hh, hname, hmember⟩ := he.member
      refine ⟨h, hh, hname, ?_⟩
      rw [← hmember, List.map_map]
      rfl
    have hclear (c) (hc : c ∈ calls) : m.Clear entries c := hrests.isClear (hfills c hc)
    obtain ⟨t₂, hworks₂, hs₂, hresults⟩ := henters₁.handshake hI hM
      (fun c hc ↦ hserves c.target c.slot (hsound c hc).slot) hplaces hlt hholds hz
      (fun c _ ↦ hrests.lowered c.target c.slot) hentries label
    have hpins (c) (hc : c ∈ calls) : x.inputs t₂ (c.pin .result) =
        I.bool (w.result (c.target, pinned (entries c))) := by
      rw [hresults c hc, Memory.arguments_startAll hplaces hclear hc]
    obtain ⟨m', hs', hdrops, hvalues⟩ := hs₂.collect hI hvalue hpins
    refine ⟨t₂, m', hworks₁.trans hworks₂, hs',
      ⟨?_, hrests.exchange hnames hplaces hfills hdrops, ?_⟩,
      forall₂_trans (fun e c r he hr ↦ ?_) hmakes hvalues⟩
    · have hagree := hdrops.values
      rw [Memory.values_startAll] at hagree
      have htemporaries : ((d.openState (label "await idle")).awaitCalls calls label).temporaries =
          d.temporaries := d.temporaries_openState _
      rwa [htemporaries] at hagree
    · have hown : calls.map (fun c ↦ ({(c.target, pinned (entries c))} : Multiset (Started V))) =
          es.map (Expr.own I l.program.tree w) :=
        map_eq_of_forall₂ (hmakes.imp fun e c he ↦ (he.own (x.inputs 0)).1.symm)
      rw [hdrops.started, Memory.started_startAll hI hplaces hclear, ← Multiset.coe_add, ← hown]
      have hsingle := Multiset.sum_map_singleton
        (↑(calls.map fun c ↦ (c.target, pinned (entries c))) : Multiset (Started V))
      rw [Multiset.map_coe, Multiset.sum_coe, List.map_map] at hsingle
      exact congrArg (_ + ·) hsingle.symm
    · rw [(he.own (x.inputs 0)).2]
      exact hr

end Carries

end Execution

end Fabric
