import Mathlib.Data.List.Induction
import Mathlib.Data.List.Pairwise
import Mathlib.Order.Basic
import Fabric.Config.Instances

namespace Fabric

namespace Dictionary

variable {α : Type}

theorem eq_of_mem_entries {d : Dictionary α} {x y : String × α} (hx : x ∈ d.entries)
    (hy : y ∈ d.entries) (h : x.1 = y.1) : x = y := by
  by_contra hne
  have hpairs := d.sorted.imp fun {a b} hlt ↦ show a.1 ≠ b.1 from
    fun heq ↦ String.lt_irrefl b.1 (heq ▸ hlt)
  have hsymm : Std.Symm fun a b : String × α ↦ a.1 ≠ b.1 := ⟨fun _ _ h ↦ h.symm⟩
  exact hpairs.forall hx hy hne h

theorem get?_eq_some_iff {d : Dictionary α} {k : String} {v : α} :
    d.get? k = some v ↔ (k, v) ∈ d.entries := by
  refine ⟨mem_of_lookup, fun h ↦ ?_⟩
  cases hget : d.get? k with
  | none => exact absurd rfl (bne_iff_ne.1 (List.lookup_eq_none_iff.1 hget _ h))
  | some w => rw [(Prod.mk.inj (eq_of_mem_entries (mem_of_lookup hget) h rfl)).2]

theorem lookup_ofList (entries : List (String × α)) (k : String) :
    (ofList entries).get? k = entries.reverse.lookup k := by
  induction entries using List.reverseRecOn with
  | nil => rfl
  | append_singleton entries e ih =>
    have hofList : ofList (entries ++ [e]) = (ofList entries).insert e.1 e.2 := by
      rw [ofList, List.foldl_append]
      rfl
    rw [hofList, get?_insert, ih, List.reverse_concat, lookup_cons_eq_ite]

theorem mem_of_get?_ofList {entries : List (String × α)} {k : String} {v : α}
    (h : (ofList entries).get? k = some v) : (k, v) ∈ entries := by
  rw [lookup_ofList] at h
  exact List.mem_reverse.1 (mem_of_lookup h)

end Dictionary

namespace Config

variable (c : Config)

def bound? (start : String) : Option UInt32 :=
  (c.instanceBounds.reverse.find? fun b ↦ b.start = start).map InstanceBound.max

/-- A dictionary that is made of the bounds has what the last entry of a start gives. -/
theorem get?_ofList_bounds {α : Type} (f : UInt32 → α) (start : String) :
    (Dictionary.ofList (c.instanceBounds.map fun b ↦ (b.start, f b.max))).get? start =
      (c.bound? start).map f := by
  have hmap (bounds : List InstanceBound) :
      (bounds.map fun b ↦ (b.start, f b.max)).lookup start =
        (bounds.find? fun b ↦ b.start = start).map fun b ↦ f b.max := by
    induction bounds with
    | nil => rfl
    | cons b bounds ih =>
      rw [List.map_cons, Dictionary.lookup_cons_eq_ite, ih, List.find?_cons]
      by_cases h : b.start = start
      · simp [h]
      · simp [h, Ne.symm h]
  rw [Dictionary.lookup_ofList, ← List.map_reverse, hmap, bound?, Option.map_map]
  rfl

end Config

namespace InstanceTable

variable {name : List Char} {entries : List (String × InstanceCount)}

theorem longestStart_eq_none : longestStart name entries = none ↔
    ∀ y ∈ entries, y.1.toList.isPrefixOf name = false := by
  induction entries with
  | nil => simp [longestStart]
  | cons x entries ih =>
    rw [longestStart, List.forall_mem_cons, ← ih]
    cases longestStart name entries with
    | some found =>
      dsimp only
      split <;> simp
    | none => rw [← Bool.not_eq_true]; simp

theorem longestStart_eq_some {x : String × InstanceCount} (h : longestStart name entries = some x) :
    x ∈ entries ∧ x.1.toList.isPrefixOf name ∧
      ∀ y ∈ entries, y.1.toList.isPrefixOf name → y.1.length ≤ x.1.length := by
  induction entries generalizing x with
  | nil => cases h
  | cons e entries ih =>
    rw [longestStart] at h
    cases hfound : longestStart name entries with
    | none =>
      rw [hfound] at h
      dsimp only at h
      split at h
      next hprefix =>
        obtain rfl := Option.some.inj h
        refine ⟨List.mem_cons_self, hprefix, List.forall_mem_cons.2 ⟨fun _ ↦ Nat.le_refl _, ?_⟩⟩
        intro y hy hstart
        rw [longestStart_eq_none.1 hfound y hy] at hstart
        cases hstart
      next => cases h
    | some found =>
      obtain ⟨hmem, hprefix, hlongest⟩ := ih hfound
      rw [hfound] at h
      dsimp only at h
      split at h
      next hlonger =>
        obtain rfl := Option.some.inj h
        rw [Bool.and_eq_true, decide_eq_true_eq] at hlonger
        refine ⟨List.mem_cons_self, hlonger.1, List.forall_mem_cons.2 ⟨fun _ ↦ Nat.le_refl _, ?_⟩⟩
        intro y hy hstart
        exact Nat.le_trans (hlongest y hy hstart) (Nat.le_of_lt hlonger.2)
      next hlonger =>
        obtain rfl := Option.some.inj h
        refine ⟨List.mem_cons_of_mem _ hmem, hprefix, List.forall_mem_cons.2 ⟨fun hstart ↦ ?_, hlongest⟩⟩
        rw [Bool.and_eq_true, decide_eq_true_eq, not_and, Nat.not_lt] at hlonger
        exact hlonger hstart

variable {t t' : InstanceTable}

structure Refines (t t' : InstanceTable) : Prop where
  kept : t.counts.entries ⊆ t'.counts.entries
  added : ∀ x ∈ t'.counts.entries,
    x ∈ t.counts.entries ∨ x.2.isDefault = true ∧ t.find? x.1 = none

theorem Refines.refl (t : InstanceTable) : t.Refines t := ⟨List.Subset.refl _, fun _ hx ↦ .inl hx⟩

theorem Refines.lookup (h : t.Refines t') (name : String) : t.Refines (t'.lookup name).2 := by
  unfold InstanceTable.lookup
  cases hfind : t'.find? name with
  | some found => exact h
  | none =>
    have hnone := longestStart_eq_none.1 hfind
    refine ⟨fun x hx ↦ ?_, fun x hx ↦ ?_⟩
    · have hne : x.1 ≠ name := by
        rintro rfl
        exact absurd (hnone x (h.kept hx)) (by simp)
      refine Dictionary.get?_eq_some_iff.1 ?_
      rw [Dictionary.get?_insert, if_neg hne, Dictionary.get?_eq_some_iff]
      exact h.kept hx
    · rcases Dictionary.mem_insertEntry hx with rfl | hx
      · refine .inr ⟨rfl, longestStart_eq_none.2 fun y hy ↦ hnone y (h.kept hy)⟩
      · exact h.added x hx

theorem Refines.lookup_of_some (h : t.Refines t') {name : String} {x : String × InstanceCount}
    (hx : t.find? name = some x) : (t'.lookup name).1 = x := by
  obtain ⟨hmem, hprefix, hlongest⟩ := longestStart_eq_some hx
  cases hfind : t'.find? name with
  | none =>
    rw [find?, longestStart_eq_none] at hfind
    rw [hfind x (h.kept hmem)] at hprefix
    cases hprefix
  | some y =>
    have hlookup : (t'.lookup name).1 = y := by
      unfold InstanceTable.lookup
      rw [hfind]
    obtain ⟨hmem', hprefix', hlongest'⟩ := longestStart_eq_some hfind
    have hle := hlongest' x (h.kept hmem) hprefix
    have hpx := List.isPrefixOf_iff_prefix.1 hprefix
    have hpy := List.isPrefixOf_iff_prefix.1 hprefix'
    have hshort : x.1.toList <+: y.1.toList :=
      List.prefix_of_prefix_length_le hpx hpy (by rwa [String.length_toList, String.length_toList])
    -- A default that is at least as long would start with the bound that is configured.
    have hfirst : y ∈ t.counts.entries := by
      refine (h.added y hmem').resolve_right ?_
      rintro ⟨-, hnone⟩
      rw [find?, longestStart_eq_none] at hnone
      exact absurd (List.isPrefixOf_iff_prefix.2 hshort) (by simp [hnone x hmem])
    have hle' := hlongest y hfirst hprefix'
    have hlength : x.1.toList.length = y.1.toList.length := by
      rw [String.length_toList, String.length_toList]
      exact Nat.le_antisymm hle hle'
    have heq : x.1 = y.1 := String.toList_inj.1 (hshort.eq_of_length hlength)
    rw [hlookup, Dictionary.eq_of_mem_entries hmem hfirst heq]

theorem Refines.lookup_of_none (h : t.Refines t') {name : String} (hnone : t.find? name = none) :
    (t'.lookup name).1.2.isDefault = true := by
  unfold InstanceTable.lookup
  cases hfind : t'.find? name with
  | none => rfl
  | some y =>
    obtain ⟨hmem, hprefix, -⟩ := longestStart_eq_some hfind
    rcases h.added y hmem with hfirst | ⟨hdefault, -⟩
    · rw [longestStart_eq_none.1 hnone y hfirst] at hprefix
      cases hprefix
    · exact hdefault

theorem isDefault_of_find?_ofConfig {c : Config} {name : String} {x : String × InstanceCount}
    (h : (ofConfig c).find? name = some x) : x.2.isDefault = false := by
  have hget := Dictionary.get?_eq_some_iff.2 (longestStart_eq_some h).1
  obtain ⟨b, -, hb⟩ := List.mem_map.1 (Dictionary.mem_of_get?_ofList hget)
  rw [← (Prod.mk.inj hb).2]

end InstanceTable

theorem Dictionary.size_insert_le {α : Type} (d : Dictionary α) (key : String) (value : α) :
    (d.insert key value).size ≤ d.size + 1 := by
  unfold size insert
  dsimp only
  induction d.entries with
  | nil => simp [insertEntry]
  | cons e entries ih =>
    unfold insertEntry
    split
    · simp
    · split
      · simp
      · simpa using ih

/-- The bound counts for a name: its start is the longest configured one that the name has, and it is
the last bound with this start. -/
structure Config.BoundFor (c : Config) (name : String) (b : InstanceBound) : Prop where
  last : c.bound? b.start = some b.max
  starts : b.start.toList <+: name.toList
  longest : ∀ x ∈ c.instanceBounds, x.start.toList <+: name.toList →
    x.start.length ≤ b.start.length

namespace InstanceTable

variable {c : Config} {t t' : InstanceTable} {name : String}

def after (t : InstanceTable) (names : List String) : InstanceTable :=
  names.foldl (fun t name ↦ (t.lookup name).2) t

theorem lookup_eq_of_some {x : String × InstanceCount} (h : t.find? name = some x) :
    t.lookup name = (x, t) := by
  rw [lookup, h]

theorem lookup_eq_of_none (h : t.find? name = none) :
    t.lookup name = ((name, ⟨1, true⟩), ⟨t.counts.insert name ⟨1, true⟩⟩) := by
  rw [lookup, h]

theorem get?_ofConfig (c : Config) (start : String) :
    (ofConfig c).counts.get? start = (c.bound? start).map fun max ↦ ⟨max, false⟩ :=
  c.get?_ofList_bounds (fun max ↦ InstanceCount.mk max false) start

theorem exists_mem_ofConfig (start : String) :
    (∃ v, (start, v) ∈ (ofConfig c).counts.entries) ↔ ∃ b ∈ c.instanceBounds, b.start = start := by
  simp only [← Dictionary.get?_eq_some_iff, ← Option.isSome_iff_exists, get?_ofConfig,
    Option.isSome_map, Config.bound?, List.find?_isSome, List.mem_reverse, decide_eq_true_eq]

theorem boundFor_of_find? {x : String × InstanceCount} (h : (ofConfig c).find? name = some x) :
    ∃ b, c.BoundFor name b ∧ x.2 = ⟨b.max, false⟩ := by
  obtain ⟨hmem, hprefix, hlongest⟩ := longestStart_eq_some h
  have hget := Dictionary.get?_eq_some_iff.2 hmem
  rw [get?_ofConfig] at hget
  obtain ⟨max, hmax, hcount⟩ := Option.map_eq_some_iff.1 hget
  refine ⟨⟨x.1, max⟩, ⟨hmax, List.isPrefixOf_iff_prefix.1 hprefix, fun y hy hstarts ↦ ?_⟩, hcount.symm⟩
  obtain ⟨v, hv⟩ := (exists_mem_ofConfig y.start).2 ⟨y, hy, rfl⟩
  exact hlongest _ hv (List.isPrefixOf_iff_prefix.2 hstarts)

theorem find?_ofConfig_eq_none : (ofConfig c).find? name = none ↔
    ∀ b ∈ c.instanceBounds, ¬ b.start.toList <+: name.toList := by
  rw [find?, longestStart_eq_none]
  constructor
  · intro h b hb hprefix
    obtain ⟨v, hv⟩ := (exists_mem_ofConfig b.start).2 ⟨b, hb, rfl⟩
    have hfalse := h _ hv
    rw [List.isPrefixOf_iff_prefix.2 hprefix] at hfalse
    cases hfalse
  · intro h x hx
    obtain ⟨b, hb, hstart⟩ := (exists_mem_ofConfig x.1).1 ⟨x.2, hx⟩
    rw [← Bool.not_eq_true, List.isPrefixOf_iff_prefix, ← hstart]
    exact h b hb

/-- What a name without a configured start gets is the default: an entry for it was made before, or is
made now. -/
theorem Refines.default_of_none (h : (ofConfig c).Refines t)
    (hdefault : ∀ x ∈ t.counts.entries, x.2.isDefault = true → x.2.max = 1)
    (hnone : (ofConfig c).find? name = none) : (t.lookup name).1.2 = ⟨1, true⟩ := by
  have hflag := h.lookup_of_none hnone
  cases hfind : t.find? name with
  | none => rw [lookup_eq_of_none hfind]
  | some x =>
    rw [lookup_eq_of_some hfind] at hflag ⊢
    have hmax := hdefault x (longestStart_eq_some hfind).1 hflag
    obtain ⟨start, max, isDefault⟩ := x
    exact congr (congrArg InstanceCount.mk hmax) hflag

structure Follows (c : Config) (t : InstanceTable) : Prop where
  refines : (ofConfig c).Refines t
  defaults : ∀ x ∈ t.counts.entries, x.2.isDefault = true → x.2.max = 1

theorem follows_ofConfig (c : Config) : Follows c (ofConfig c) := by
  refine ⟨.refl _, fun x hx hdefault ↦ ?_⟩
  have hget := Dictionary.get?_eq_some_iff.2 hx
  rw [get?_ofConfig] at hget
  obtain ⟨b, -, hb⟩ := Option.map_eq_some_iff.1 hget
  rw [← hb] at hdefault
  cases hdefault

theorem Follows.lookup (h : Follows c t) (name : String) : Follows c (t.lookup name).2 := by
  refine ⟨h.refines.lookup name, ?_⟩
  cases hfind : t.find? name with
  | some x =>
    rw [lookup_eq_of_some hfind]
    exact h.defaults
  | none =>
    rw [lookup_eq_of_none hfind]
    intro x hx hdefault
    rcases Dictionary.mem_insertEntry hx with rfl | hx
    · rfl
    · exact h.defaults x hx hdefault

theorem Follows.after (h : Follows c t) (names : List String) : Follows c (t.after names) := by
  induction names generalizing t with
  | nil => exact h
  | cons name names ih => exact ih (h.lookup name)

theorem find?_lookup (t : InstanceTable) (name : String) :
    (t.lookup name).2.find? name = some (t.lookup name).1 := by
  cases hfind : t.find? name with
  | some x => rw [lookup_eq_of_some hfind, hfind]
  | none =>
    rw [lookup_eq_of_none hfind]
    cases hnew : find? ⟨t.counts.insert name ⟨1, true⟩⟩ name with
    | none =>
      have hmem : (name, (⟨1, true⟩ : InstanceCount)) ∈
          (t.counts.insert name ⟨1, true⟩).entries := by
        rw [← Dictionary.get?_eq_some_iff, Dictionary.get?_insert, if_pos rfl]
      have hfalse := longestStart_eq_none.1 hnew _ hmem
      rw [List.isPrefixOf_iff_prefix.2 (List.prefix_refl _)] at hfalse
      cases hfalse
    | some x =>
      obtain ⟨hmem, hprefix, -⟩ := longestStart_eq_some hnew
      rcases Dictionary.mem_insertEntry hmem with rfl | hmem
      · rfl
      · rw [longestStart_eq_none.1 hfind x hmem] at hprefix
        cases hprefix

theorem lookup_lookup (t : InstanceTable) (name : String) :
    (t.lookup name).2.lookup name = t.lookup name := by
  rw [lookup_eq_of_some (t.find?_lookup name)]

theorem isSome_find?_of_refines (h : t.Refines t') (hsome : (t.find? name).isSome) :
    (t'.find? name).isSome := by
  rw [← Option.ne_none_iff_isSome] at hsome ⊢
  intro hnone
  rw [find?, longestStart_eq_none] at hnone
  exact hsome (longestStart_eq_none.2 fun y hy ↦ hnone y (h.kept hy))

theorem refines_after (t : InstanceTable) (names : List String) : t.Refines (t.after names) := by
  have hafter {t' : InstanceTable} (h : t.Refines t') : t.Refines (t'.after names) := by
    induction names generalizing t' with
    | nil => exact h
    | cons name names ih => exact ih (h.lookup name)
  exact hafter (.refl t)

theorem lookup_of_mem {names : List String} (h : name ∈ names) (t : InstanceTable) :
    ((t.after names).lookup name).2 = t.after names := by
  have hsome : ((t.after names).find? name).isSome := by
    induction names generalizing t with
    | nil => cases h
    | cons first names ih =>
      rcases List.mem_cons.1 h with rfl | h
      · refine isSome_find?_of_refines (refines_after _ names) ?_
        rw [find?_lookup, Option.isSome_some]
      · exact ih h (t.lookup first).2
  obtain ⟨x, hx⟩ := Option.isSome_iff_exists.1 hsome
  rw [lookup_eq_of_some hx]

theorem size_lookup_le (t : InstanceTable) (name : String) :
    (t.lookup name).2.counts.size ≤ t.counts.size + 1 := by
  cases hfind : t.find? name with
  | some x =>
    rw [lookup_eq_of_some hfind]
    exact Nat.le_succ _
  | none =>
    rw [lookup_eq_of_none hfind]
    exact t.counts.size_insert_le _ _

/-- Whatever was looked up before, a name gets the last bound that is configured for the longest of its
configured starts, or the default if it has none. The configured entries stay, a lookup adds at most
one entry, and none if the name was looked up before. -/
theorem lookup_after (c : Config) (names : List String) (name : String) :
    let t := (ofConfig c).after names
    ((∃ b, c.BoundFor name b ∧ (t.lookup name).1.2 = ⟨b.max, false⟩) ∨
      (∀ b ∈ c.instanceBounds, ¬ b.start.toList <+: name.toList) ∧
        (t.lookup name).1.2 = ⟨1, true⟩) ∧
      (∀ start max, c.bound? start = some max → t.counts.get? start = some ⟨max, false⟩) ∧
      (t.lookup name).2.counts.size ≤ t.counts.size + 1 ∧
      (t.lookup name).2.lookup name = t.lookup name ∧
      (name ∈ names → (t.lookup name).2 = t) := by
  intro t
  have ht : Follows c t := (follows_ofConfig c).after names
  refine ⟨?_, fun start max hmax ↦ ?_, size_lookup_le t name, lookup_lookup t name, fun h ↦ lookup_of_mem h _⟩
  · cases hfind : (ofConfig c).find? name with
    | some x =>
      obtain ⟨b, hbound, hx⟩ := boundFor_of_find? hfind
      exact .inl ⟨b, hbound, by rw [ht.refines.lookup_of_some hfind, hx]⟩
    | none =>
      exact .inr ⟨find?_ofConfig_eq_none.1 hfind, ht.refines.default_of_none ht.defaults hfind⟩
  · have hget : (ofConfig c).counts.get? start = some ⟨max, false⟩ := by
      rw [get?_ofConfig, hmax, Option.map_some]
    rw [Dictionary.get?_eq_some_iff] at hget ⊢
    exact ht.refines.kept hget

end InstanceTable

def nestedBounds : Config :=
  { device := "Zynq-7020", instanceBounds := [⟨"Demo", 2⟩, ⟨"Demo.K", 3⟩, ⟨"Demo", 4⟩] }

/-- A default that was entered for `De` does not stand in front of the last bound of `Demo`, but counts
for another name that starts with it. -/
theorem lookup_after_nested :
    let t := (InstanceTable.ofConfig nestedBounds).after ["De", "Demo.L.M()"]
    t.counts.get? "Demo" = some ⟨4, false⟩ ∧ (t.lookup "De").2 = t ∧
      (t.lookup "Demo.L.N()").1 = ("Demo", ⟨4, false⟩) ∧ (t.lookup "Desk").1 = ("De", ⟨1, true⟩) := by
  intro t
  obtain ⟨-, hkept, -, -, hnone⟩ :=
    InstanceTable.lookup_after nestedBounds ["De", "Demo.L.M()"] "De"
  exact ⟨hkept "Demo" 4 (by decide), hnone (by decide), by decide +kernel, by decide +kernel⟩

end Fabric
