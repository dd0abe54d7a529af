import Fabric.Proofs.Text.Order
import Mathlib.Data.Finset.Card

namespace Fabric

namespace MemberIdTable

variable {t : MemberIdTable} {names : List String}

theorem idOf_eq_some (hs : t.entries.Pairwise fun a b ↦ a.fullName < b.fullName) {name : String}
    {id : UInt32} : t.idOf name = some id ↔ ⟨id, name⟩ ∈ t.entries := by
  rw [idOf, Option.map_eq_some_iff]
  constructor
  · rintro ⟨e, he, rfl⟩
    obtain ⟨hmem, rfl⟩ := (searchSorted_eq_some hs).1 he
    exact hmem
  · intro he
    exact ⟨_, (searchSorted_eq_some hs).2 ⟨he, rfl⟩, rfl⟩

theorem nameOf_eq_some
    (hids : ∀ (i : Nat) (e : MemberId), t.entries[i]? = some e → e.id.toNat = i) {name : String}
    {id : UInt32} : t.nameOf id = some name ↔ ⟨id, name⟩ ∈ t.entries := by
  rw [nameOf, Option.map_eq_some_iff]
  constructor
  · rintro ⟨e, he, rfl⟩
    have hid := UInt32.toNat_inj.1 (hids _ e he)
    rw [← hid]
    exact List.mem_of_getElem? he
  · intro he
    obtain ⟨i, hi⟩ := List.getElem?_of_mem he
    have hid : id.toNat = i := hids i _ hi
    exact ⟨_, hid ▸ hi, rfl⟩

theorem entries_ofNames (h : names.Pairwise (· < ·)) :
    (ofNames names).entries = names.zipIdx.map fun x ↦ ⟨UInt32.ofNat x.2, x.1⟩ := by
  have hsort : (names.mergeSort fun a b ↦ decide (a ≤ b)) = names :=
    @mergeSort_of_increasing String id names h
  have hnodup : names.Nodup := by simpa using @nodup_of_increasing String id names h
  unfold ofNames
  dsimp only
  rw [hsort, dedupSorted_of_nodup hnodup]

theorem id_ofNames (h : names.Pairwise (· < ·)) (hlen : names.length ≤ 2 ^ 32) (i : Nat)
    (e : MemberId) (he : (ofNames names).entries[i]? = some e) : e.id.toNat = i := by
  rw [entries_ofNames h, List.getElem?_map, List.getElem?_zipIdx] at he
  obtain ⟨x, hx, rfl⟩ := Option.map_eq_some_iff.1 he
  obtain ⟨name, hname, rfl⟩ := Option.map_eq_some_iff.1 hx
  have hi := (List.getElem?_eq_some_iff.1 hname).1
  dsimp only
  rw [Nat.zero_add]
  exact UInt32.toNat_ofNat_of_lt' (Nat.lt_of_lt_of_le hi hlen)

theorem fullName_ofNames (h : names.Pairwise (· < ·)) :
    (ofNames names).entries.map MemberId.fullName = names := by
  rw [entries_ofNames h, List.map_map]
  exact List.zipIdx_map_fst 0 names

theorem mem_of_mem_ofNames {e : MemberId} (h : e ∈ (ofNames names).entries) :
    e.fullName ∈ names := by
  obtain ⟨⟨name, i⟩, hmem, rfl⟩ := List.mem_map.1 h
  exact List.mem_mergeSort.1 (mem_dedupSorted.1 (List.fst_mem_of_mem_zipIdx hmem))

theorem exists_ofNames_eq (names : List String) : ∃ sorted : List String,
    sorted.Pairwise (· < ·) ∧ (∀ name, name ∈ sorted ↔ name ∈ names) ∧
    ofNames names = ofNames sorted := by
  have hsorted := increasing_dedupSorted (pairwise_mergeSort_text id names)
  refine ⟨_, hsorted, ?_, ?_⟩
  · intro name
    rw [mem_dedupSorted, List.mem_mergeSort]
  · exact congrArg MemberIdTable.mk (entries_ofNames hsorted).symm

theorem ofNames_congr {names' : List String} (h : ∀ name, name ∈ names' ↔ name ∈ names) :
    ofNames names' = ofNames names := by
  obtain ⟨sorted, hsorted, hmem, heq⟩ := exists_ofNames_eq names
  obtain ⟨sorted', hsorted', hmem', heq'⟩ := exists_ofNames_eq names'
  have hsame : sorted' = sorted := by
    apply eq_of_increasing hsorted' hsorted
    intro name
    rw [hmem', h, hmem]
  rw [heq, heq', hsame]

theorem ids_ofNames (h : names.Pairwise (· < ·)) (hlen : names.length ≤ 2 ^ 32) :
    (ofNames names).entries.map (fun e ↦ e.id.toNat) = List.range names.length := by
  have hnumber : ∀ x ∈ names.zipIdx, (UInt32.ofNat x.2).toNat = x.2 := by
    intro x hx
    have hlt := (List.getElem?_eq_some_iff.1 (List.mem_zipIdx_iff_getElem?.1 hx)).1
    exact UInt32.toNat_ofNat_of_lt' (Nat.lt_of_lt_of_le hlt hlen)
  rw [entries_ofNames h, List.map_map, List.range_eq_range', ← List.zipIdx_map_snd]
  exact List.map_congr_left hnumber

/-- Names are numbered from zero in the order of their bytes, each once, whatever their order and
however often they are given. There are `2 ^ 32` numbers: as long as they are enough, a name and its
number are found from each other. -/
theorem ofNames_exact (names : List String) :
    (ofNames names).entries.length = names.toFinset.card ∧
    ((ofNames names).entries.map MemberId.fullName).Pairwise
      (fun a b ↦ Text.utf8 a < Text.utf8 b) ∧
    (∀ name, ((ofNames names).idOf name).isSome ↔ name ∈ names) ∧
    (∀ names', (∀ name, name ∈ names' ↔ name ∈ names) → ofNames names' = ofNames names) ∧
    (names.toFinset.card ≤ 2 ^ 32 →
      (ofNames names).entries.map (fun e ↦ e.id.toNat) = List.range names.toFinset.card ∧
      ∀ name id, (ofNames names).idOf name = some id ↔ (ofNames names).nameOf id = some name) := by
  obtain ⟨sorted, hsorted, hmem, heq⟩ := exists_ofNames_eq names
  have hcard : names.toFinset.card = sorted.length := by
    rw [← List.toFinset_card_of_nodup (hsorted.imp Std.ne_of_lt)]
    congr 1
    ext name
    simp [hmem]
  have hnames := fullName_ofNames hsorted
  have hincreasing : (ofNames sorted).entries.Pairwise fun a b ↦ a.fullName < b.fullName := by
    rw [← List.pairwise_map, hnames]
    exact hsorted
  refine ⟨?_, ?_, ?_, fun names' h ↦ ofNames_congr h, ?_⟩
  · rw [heq, hcard, entries_ofNames hsorted, List.length_map, List.length_zipIdx]
  · rw [heq, hnames]
    exact hsorted.imp Text.utf8_lt_utf8
  · intro name
    have hmem' : name ∈ names ↔ ∃ e ∈ (ofNames sorted).entries, e.fullName = name := by
      rw [← List.mem_map, hnames, hmem]
    rw [heq, Option.isSome_iff_exists, hmem']
    simp only [idOf_eq_some hincreasing]
    constructor
    · rintro ⟨id, hid⟩
      exact ⟨_, hid, rfl⟩
    · rintro ⟨e, he, rfl⟩
      exact ⟨e.id, he⟩
  · intro hlen
    rw [hcard] at hlen ⊢
    rw [heq]
    refine ⟨ids_ofNames hsorted hlen, ?_⟩
    intro name id
    rw [idOf_eq_some hincreasing, nameOf_eq_some (id_ofNames hsorted hlen)]

/-- A name that is given twice has one number. -/
theorem ofNames_exact_repeated :
    let t := ofNames ["B.Run()", "A.Run()", "B.Run()"]
    ["B.Run()", "A.Run()", "B.Run()"].toFinset.card ≤ 2 ^ 32 ∧
    t.entries.map (fun e ↦ e.id.toNat) = [0, 1] ∧
    t.nameOf 1 = some "B.Run()" ∧ t.idOf "B.Run()" = some 1 := by
  have hcard : ["B.Run()", "A.Run()", "B.Run()"].toFinset.card = 2 := by decide
  have hlen : ["B.Run()", "A.Run()", "B.Run()"].toFinset.card ≤ 2 ^ 32 := by omega
  obtain ⟨-, -, -, hsame, hexact⟩ := ofNames_exact ["B.Run()", "A.Run()", "B.Run()"]
  obtain ⟨hids, hiff⟩ := hexact hlen
  have hname : (ofNames ["B.Run()", "A.Run()", "B.Run()"]).nameOf 1 = some "B.Run()" := by
    rw [← hsame ["A.Run()", "B.Run()"] (by simp), nameOf, entries_ofNames (by decide)]
    rfl
  exact ⟨hlen, hids.trans (by rw [hcard]; rfl), hname, (hiff _ _).2 hname⟩

end MemberIdTable

end Fabric
