import Fabric.Proofs.Construction.Member
import Fabric.Proofs.Resolution.Fixpoint
import Fabric.Proofs.Synthesis.Planned

namespace Fabric

namespace Dictionary

variable {α β : Type}

theorem get?_mapValues (d : Dictionary α) (f : α → β) (key : String) :
    (d.mapValues f).get? key = (d.get? key).map f := by
  change (d.entries.map fun e ↦ (e.1, f e.2)).lookup key = (d.entries.lookup key).map f
  induction d.entries with
  | nil => rfl
  | cons e rest ih =>
    rw [List.map_cons, lookup_cons_eq_ite, lookup_cons_eq_ite, ih]
    split <;> rfl

end Dictionary

namespace ArrayTable

variable {c : Config} {table table' : ArrayTable} {array : String} {length : UInt32}

def Configured (c : Config) (table : ArrayTable) : Prop :=
  ∀ array x, table.entry? array = some x → x.source = .configured →
    c.arrayLengths.get? array = some x.length

theorem configured_ofConfig (c : Config) : (ofConfig c).Configured c := by
  intro array x hx _
  unfold entry? at hx
  rw [ofConfig, Dictionary.get?_mapValues] at hx
  obtain ⟨n, hn, rfl⟩ := Option.map_eq_some_iff.1 hx
  exact hn

theorem Configured.record (ht : table.Configured c)
    (h : table.record array length = .ok (some table')) : table'.Configured c := by
  unfold ArrayTable.record at h
  split at h
  · obtain rfl := Option.some.inj (Except.ok.inj h)
    intro other x hx hsource
    unfold entry? at hx
    rw [Dictionary.get?_insert] at hx
    split at hx
    · obtain rfl := Option.some.inj hx
      cases hsource
    · exact ht other x hx hsource
  · split at h <;> cases h

theorem Configured.recordAll (ht : table.Configured c) (found : List (String × UInt32)) :
    (recordAll found table).2.Configured c := by
  induction found generalizing table with
  | nil => exact ht
  | cons p rest ih =>
    unfold ArrayTable.recordAll
    split
    · exact ht
    · exact ih ht
    next h => exact ih (ht.record h)

theorem entry_of_record (h : table.record array length = .ok none) :
    ∃ x, table.entry? array = some x ∧ (x.source = .configured ∨ x.length = length) := by
  unfold record at h
  split at h
  · cases h
  next x hx =>
    split at h
    next hknown => exact ⟨x, hx, hknown⟩
    · cases h

theorem entry_of_recordAll {found : List (String × UInt32)}
    (h : table.recordAll found = (.ok 0, table')) {p : String × UInt32} (hp : p ∈ found) :
    ∃ x, table.entry? p.1 = some x ∧ (x.source = .configured ∨ x.length = p.2) := by
  induction found with
  | nil => cases hp
  | cons q rest ih =>
    unfold recordAll at h
    split at h
    · cases (Prod.mk.inj h).1
    next hrecord =>
      rcases List.mem_cons.1 hp with rfl | hp
      · exact entry_of_record hrecord
      · exact ih h hp
    next next hrecord =>
      dsimp only at h
      cases hcount : (recordAll rest next).1 with
      | error e =>
        rw [hcount] at h
        cases (Prod.mk.inj h).1
      | ok n =>
        rw [hcount] at h
        exact absurd (Except.ok.inj (Prod.mk.inj h).1) (Nat.succ_ne_zero n)

end ArrayTable

theorem ResolvedTree.configured_rounds {c : Config} {fuel : Nat} {r r' : ResolvedTree}
    (hr : r.arrays.Configured c) (h : rounds fuel r = .ok r') : r'.arrays.Configured c := by
  refine rounds_induction (P := fun r ↦ r.arrays.Configured c) (fun r _ _ hr hi ↦ ?_) hr h
  have hall := hr.recordAll (r.tree.foldConstants.1.types.flatMap
    (r.tree.foldConstants.1.observeType r.arrays))
  rw [SyntaxTree.inferLengths] at hi
  rwa [hi] at hall

namespace SyntaxTree

variable {t : SyntaxTree} {c : Config} {r : ResolvedTree} {h : MemberHandle} {code s : Stmt}

theorem configured_resolve (hr : t.resolve c = .ok r) : r.arrays.Configured c := by
  unfold resolve at hr
  split at hr
  · cases hr
  · exact ResolvedTree.configured_rounds (ArrayTable.configured_ofConfig c) hr

theorem mem_observed {table : ArrayTable} {p : String × UInt32}
    (hcode : (t.method h).body = some code) (hs : s ∈ code.nodes)
    (hp : LengthScope.observeStmt ⟨t, table, t.memberFullName h⟩ s = some p) :
    p ∈ t.types.flatMap (t.observeType table) := by
  obtain ⟨htype, hmethod⟩ := declaringType_of_mem_handles (Lowering.mem_handles_of_body hcode)
  refine List.mem_flatMap.2 ⟨_, htype, List.mem_append_right _ ?_⟩
  refine List.mem_flatMap.2 ⟨t.method h, hmethod, List.mem_flatMap.2 ⟨code, ?_, ?_⟩⟩
  · rw [hcode]
    exact List.mem_singleton_self code
  · exact List.mem_append_left _ (List.mem_filterMap.2 ⟨s, hs, hp⟩)

/-- After resolution the array to which a statement gives a length has it, or another one that the
settings give it. -/
theorem length_of_observed (hr : t.resolve c = .ok r)
    (hcode : (r.tree.method h).body = some code) (hs : s ∈ code.nodes) {array : String} {n : UInt32}
    (hp : LengthScope.observeStmt ⟨r.tree, r.arrays, r.tree.memberFullName h⟩ s = some (array, n)) :
    ∃ length, r.arrays.get? array = some length ∧
      (length = n ∨ c.arrayLengths.get? array = some length) := by
  have hsettled := (settled_of_resolve hr).lengths
  obtain ⟨x, hx, hknown⟩ := ArrayTable.entry_of_recordAll hsettled (mem_observed hcode hs hp)
  refine ⟨x.length, congrArg (Option.map ArrayLength.length) hx, ?_⟩
  rcases hknown with hsource | hlength
  · exact .inr (configured_resolve hr array x hx hsource)
  · exact .inl hlength

end SyntaxTree

end Fabric
