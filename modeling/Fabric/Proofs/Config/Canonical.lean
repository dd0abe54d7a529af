import Mathlib.Data.List.Induction
import Fabric.Config.Canonical
import Fabric.Proofs.Config.Bounds
import Fabric.Proofs.Text.Separation

namespace Fabric

namespace Dictionary

variable {α : Type}

theorem nodup_entries (d : Dictionary α) : d.entries.Nodup := by
  refine d.sorted.imp ?_
  rintro a b hlt rfl
  exact String.lt_irrefl _ hlt

theorem ext_entries {d d' : Dictionary α} (h : d.entries = d'.entries) : d = d' := by
  cases d
  cases d'
  congr

/-- A dictionary is determined by its lookups. -/
theorem ext_get? {d d' : Dictionary α} (h : ∀ k, d.get? k = d'.get? k) : d = d' := by
  have hmem (e : String × α) : e ∈ d.entries ↔ e ∈ d'.entries := by
    rw [← get?_eq_some_iff, ← get?_eq_some_iff, h]
  have hperm := (List.perm_ext_iff_of_nodup d.nodup_entries d'.nodup_entries).2 hmem
  refine ext_entries (hperm.eq_of_pairwise ?_ d.sorted d'.sorted)
  intro a b _ _ hab hba
  exact absurd (String.lt_trans hab hba) (String.lt_irrefl _)

end Dictionary

namespace Config

variable (c : Config)

theorem get?_instanceBounds (start : String) :
    c.canonical.instanceBounds.get? start = c.bound? start := by
  rw [canonical, c.get?_ofList_bounds fun max ↦ max, Option.map_id_fun', id]

theorem get?_entryPointStarts (start : String) :
    c.canonical.entryPointStarts.get? start = some () ↔ start ∈ c.entryPointStarts := by
  have hmem : start ∈ c.entryPointStarts ↔
      (start, ()) ∈ (c.entryPointStarts.map fun s ↦ (s, ())).reverse := by simp
  rw [canonical, Dictionary.lookup_ofList, hmem]
  refine ⟨mem_of_lookup, fun h ↦ ?_⟩
  cases hlookup : List.lookup start (c.entryPointStarts.map fun s ↦ (s, ())).reverse with
  | none => exact absurd rfl (bne_iff_ne.1 (List.lookup_eq_none_iff.1 hlookup _ h))
  | some _ => rfl

/-- Two configurations that agree on every setting of the canonical form: on array lengths and on
bounds as maps, on starts of entry points as a set, and on the clock in whole hertz. -/
structure SameSettings (c c' : Config) : Prop where
  schemaVersion : c.schemaVersion = c'.schemaVersion
  device : c.device = c'.device
  generationMode : c.generationMode = c'.generationMode
  clock : c.clockFrequency.map canonicalClock = c'.clockFrequency.map canonicalClock
  arrayLengths : ∀ array, c.arrayLengths.get? array = c'.arrayLengths.get? array
  bounds : ∀ start, c.bound? start = c'.bound? start
  entryPointStarts : ∀ start, start ∈ c.entryPointStarts ↔ start ∈ c'.entryPointStarts

variable {c} {c' : Config}

theorem sameSettings_of_canonical (h : c.canonical = c'.canonical) : c.SameSettings c' where
  schemaVersion := congrArg (·.schemaVersion) h
  device := congrArg (·.device) h
  generationMode := congrArg (·.generationMode) h
  clock := congrArg (·.clockFrequency) h
  arrayLengths array := congrArg (·.arrayLengths.get? array) h
  bounds start := by rw [← get?_instanceBounds, ← get?_instanceBounds, h]
  entryPointStarts start := by rw [← get?_entryPointStarts, ← get?_entryPointStarts, h]

theorem SameSettings.canonical_eq (h : c.SameSettings c') : c.canonical = c'.canonical := by
  have hbounds : c.canonical.instanceBounds = c'.canonical.instanceBounds := by
    refine Dictionary.ext_get? fun start ↦ ?_
    rw [get?_instanceBounds, get?_instanceBounds, h.bounds]
  have hstarts : c.canonical.entryPointStarts = c'.canonical.entryPointStarts := by
    refine Dictionary.ext_get? fun start ↦ Option.ext fun _ ↦ ?_
    rw [get?_entryPointStarts, get?_entryPointStarts, h.entryPointStarts]
  rw [canonical, canonical, CanonicalConfig.mk.injEq]
  exact ⟨h.schemaVersion, h.device, h.generationMode, h.clock, Dictionary.ext_get? h.arrayLengths,
    hbounds, hstarts⟩

end Config

namespace CanonicalConfig

inductive Record
  | schema (version : UInt32)
  | device (name : String)
  | mode (mode : GenerationMode)
  | clock (text : String)
  | arrayLength (array : String) (length : UInt32)
  | bound (start : String) (max : UInt32)
  | entryPoints (start : String)

theorem sized_append_inj {a b : String} {r s : List Char}
    (h : (sized a).toList ++ r = (sized b).toList ++ s) : a = b ∧ r = s := by
  simp only [sized, String.toList_append, List.append_assoc] at h
  obtain ⟨hsize, hrest⟩ := Text.toString_append_inj (c := ':') (by decide) h
  exact Text.toList_append_inj hsize hrest

namespace Record

def label : Record → String
  | .schema _ => "schema_version="
  | .device _ => "device="
  | .mode _ => "generation_mode="
  | .clock _ => "clock_frequency="
  | .arrayLength _ _ => "array_length "
  | .bound _ _ => "instance_count "
  | .entryPoints _ => "entry_point_prefix "

def content : Record → String
  | .schema version => toString version.toNat
  | .device name => sized name
  | .mode m => m.name
  | .clock text => sized text
  | .arrayLength array length => sized array ++ "=" ++ toString length.toNat
  | .bound start max => sized start ++ "=" ++ toString max.toNat
  | .entryPoints start => sized start

def write (r : Record) : List Char := r.label.toList ++ r.content.toList ++ ['\n']

def mark : Record → Char
  | .schema _ => 's'
  | .device _ => 'd'
  | .mode _ => 'g'
  | .clock _ => 'c'
  | .arrayLength _ _ => 'a'
  | .bound _ _ => 'i'
  | .entryPoints _ => 'e'

def clock? : Record → Option String
  | .clock text => some text
  | _ => none

def arrayLength? : Record → Option (String × UInt32)
  | .arrayLength array length => some (array, length)
  | _ => none

def bound? : Record → Option (String × UInt32)
  | .bound start max => some (start, max)
  | _ => none

def entryPoints? : Record → Option (String × Unit)
  | .entryPoints start => some (start, ())
  | _ => none

theorem head?_label (r : Record) : r.label.toList.head? = some r.mark := by
  cases r <;> simp [label, mark]

theorem head?_write (r : Record) (rest : List Char) : (r.write ++ rest).head? = some r.mark := by
  rw [write, List.append_assoc, List.append_assoc, List.head?_append, head?_label, Option.some_or]

theorem write_ne_nil (r : Record) : r.write ≠ [] := by
  intro h
  have hmark := head?_write r []
  rw [h] at hmark
  cases hmark

theorem entry_append_inj {a b : String} {m n : UInt32} {r s : List Char}
    (h : (sized a ++ "=" ++ toString m.toNat).toList ++ '\n' :: r =
      (sized b ++ "=" ++ toString n.toNat).toList ++ '\n' :: s) : a = b ∧ m = n ∧ r = s := by
  simp only [String.toList_append, List.append_assoc] at h
  obtain ⟨rfl, hrest⟩ := sized_append_inj h
  obtain ⟨hnumber, hend⟩ := Text.toString_append_inj (by decide) (List.append_cancel_left hrest)
  exact ⟨rfl, UInt32.toNat_inj.1 hnumber, hend⟩

theorem separated_write : Separated (fun _ ↦ True) write := by
  intro a b _ _ r s h
  have hmark : a.mark = b.mark := by
    rw [← Option.some_inj, ← head?_write a r, ← head?_write b s, h]
  have hlabel : a.label = b.label := by
    cases a <;> cases b <;> first | rfl | simp [mark] at hmark
  simp only [write, hlabel, List.append_assoc, List.cons_append, List.nil_append] at h
  have h := List.append_cancel_left h
  cases a with
  | schema v =>
    cases b with
    | schema w =>
      obtain ⟨hv, hrest⟩ := Text.toString_append_inj (by decide) h
      exact ⟨congrArg schema (UInt32.toNat_inj.1 hv), hrest⟩
    | _ => simp [mark] at hmark
  | device name =>
    cases b with
    | device name' =>
      obtain ⟨rfl, hrest⟩ := sized_append_inj h
      exact ⟨rfl, (List.cons.inj hrest).2⟩
    | _ => simp [mark] at hmark
  | mode m =>
    cases b with
    | mode m' =>
      have hm : m = m' := by
        cases m <;> cases m' <;> first | rfl | simp [content, GenerationMode.name] at h
      subst hm
      exact ⟨rfl, (List.cons.inj (List.append_cancel_left h)).2⟩
    | _ => simp [mark] at hmark
  | clock text =>
    cases b with
    | clock text' =>
      obtain ⟨rfl, hrest⟩ := sized_append_inj h
      exact ⟨rfl, (List.cons.inj hrest).2⟩
    | _ => simp [mark] at hmark
  | arrayLength array length =>
    cases b with
    | arrayLength array' length' =>
      obtain ⟨rfl, rfl, hrest⟩ := entry_append_inj h
      exact ⟨rfl, hrest⟩
    | _ => simp [mark] at hmark
  | bound start max =>
    cases b with
    | bound start' max' =>
      obtain ⟨rfl, rfl, hrest⟩ := entry_append_inj h
      exact ⟨rfl, hrest⟩
    | _ => simp [mark] at hmark
  | entryPoints start =>
    cases b with
    | entryPoints start' =>
      obtain ⟨rfl, hrest⟩ := sized_append_inj h
      exact ⟨rfl, (List.cons.inj hrest).2⟩
    | _ => simp [mark] at hmark

end Record

def details (c : CanonicalConfig) : List Record :=
  c.clockFrequency.toList.map Record.clock
    ++ c.arrayLengths.entries.map (fun e ↦ Record.arrayLength e.1 e.2)
    ++ c.instanceBounds.entries.map (fun e ↦ Record.bound e.1 e.2)
    ++ c.entryPointStarts.entries.map (fun e ↦ Record.entryPoints e.1)

def records (c : CanonicalConfig) : List Record :=
  .schema c.schemaVersion :: .device c.device :: .mode c.generationMode :: c.details

theorem lines_eq (c : CanonicalConfig) : c.lines = c.records.map fun r ↦ r.label ++ r.content := by
  simp [lines, records, details, entryLines, Record.label, Record.content, String.append_assoc,
    Dictionary.keys, Function.comp_def]

theorem toList_print (c : CanonicalConfig) : c.print.toList = c.records.flatMap Record.write := by
  rw [print, String.toList_join, lines_eq, List.flatMap_map, List.flatMap_map]
  refine List.flatMap_congr fun r _ ↦ ?_
  rw [String.toList_append, String.toList_append]
  rfl

theorem filterMap_details {β : Type} (g : Record → Option β) (c : CanonicalConfig) :
    c.details.filterMap g =
      c.clockFrequency.toList.filterMap (fun text ↦ g (.clock text))
        ++ c.arrayLengths.entries.filterMap (fun e ↦ g (.arrayLength e.1 e.2))
        ++ c.instanceBounds.entries.filterMap (fun e ↦ g (.bound e.1 e.2))
        ++ c.entryPointStarts.entries.filterMap (fun e ↦ g (.entryPoints e.1)) := by
  simp [details, List.filterMap_append, List.filterMap_map]

theorem records_injective {c c' : CanonicalConfig} (h : c.records = c'.records) : c = c' := by
  simp only [records, List.cons.injEq, Record.schema.injEq, Record.device.injEq,
    Record.mode.injEq] at h
  obtain ⟨hschema, hdevice, hmode, hdetails⟩ := h
  have hclock : c.clockFrequency = c'.clockFrequency := by
    have hkept := congrArg (fun rs ↦ (rs.filterMap Record.clock?).head?) hdetails
    simpa [filterMap_details, Record.clock?] using hkept
  have harrays : c.arrayLengths.entries = c'.arrayLengths.entries := by
    have hkept := congrArg (List.filterMap Record.arrayLength?) hdetails
    simpa [filterMap_details, Record.arrayLength?] using hkept
  have hbounds : c.instanceBounds.entries = c'.instanceBounds.entries := by
    have hkept := congrArg (List.filterMap Record.bound?) hdetails
    simpa [filterMap_details, Record.bound?] using hkept
  have hstarts : c.entryPointStarts.entries = c'.entryPointStarts.entries := by
    have hkept := congrArg (List.filterMap Record.entryPoints?) hdetails
    simpa [filterMap_details, Record.entryPoints?] using hkept
  cases c
  cases c'
  rw [CanonicalConfig.mk.injEq]
  exact ⟨hschema, hdevice, hmode, hclock, Dictionary.ext_entries harrays,
    Dictionary.ext_entries hbounds, Dictionary.ext_entries hstarts⟩

/-- The canonical text gives the canonical form back. -/
theorem print_injective {c c' : CanonicalConfig} (h : c.print = c'.print) : c = c' := by
  have hchars := congrArg String.toList h
  rw [toList_print, toList_print] at hchars
  exact records_injective (Record.separated_write.flatMap_inj Record.write_ne_nil
    (fun _ _ ↦ trivial) (fun _ _ ↦ trivial) hchars)

end CanonicalConfig

namespace Config

variable {c c' : Config}

theorem sameSettings_of_canonicalText (h : c.canonicalText = c'.canonicalText) :
    c.SameSettings c' :=
  sameSettings_of_canonical (CanonicalConfig.print_injective h)

/-- The canonical text tells two configurations apart exactly if they differ in a setting: no choice
of names makes two texts alike, and neither order nor overridden entries show. -/
theorem canonicalText_eq_iff : c.canonicalText = c'.canonicalText ↔ c.SameSettings c' :=
  ⟨sameSettings_of_canonicalText, fun h ↦ congrArg CanonicalConfig.print h.canonical_eq⟩

end Config

end Fabric
