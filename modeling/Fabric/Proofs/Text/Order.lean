import Fabric.Hardware.Manifest
import Fabric.Proofs.Packed.Basic
import Mathlib.Data.List.Nodup

namespace Fabric

open scoped List

namespace Text

theorem utf8_eq_flatMap (s : String) : utf8 s = s.toList.flatMap String.utf8EncodeChar := by
  rw [utf8_eq, ← String.utf8Encode_toList, List.utf8Encode, List.toList_data_toByteArray]

theorem ofNat_lt_iff {m n : Nat} (hm : m < 256) (hn : n < 256) :
    UInt8.ofNat m < UInt8.ofNat n ↔ m < n := by
  rw [UInt8.lt_iff_toNat_lt, UInt8.toNat_ofNat_of_lt' hm, UInt8.toNat_ofNat_of_lt' hn]

theorem ofNat_inj {m n : Nat} (hm : m < 256) (hn : n < 256) :
    UInt8.ofNat m = UInt8.ofNat n ↔ m = n := by
  rw [← UInt8.toNat_inj, UInt8.toNat_ofNat_of_lt' hm, UInt8.toNat_ofNat_of_lt' hn]

/-- A character of fewer bytes has a smaller first byte, and one of the same number of bytes has its
digits to the base 64 in them. -/
theorem utf8EncodeChar_append_lt {c d : Char} (h : c < d) (r s : List UInt8) :
    String.utf8EncodeChar c ++ r < String.utf8EncodeChar d ++ s := by
  have hlt : c.val.toNat < d.val.toNat := h
  have hmax : d.val.toNat < 1114112 := by
    rcases d.valid with h | ⟨-, h⟩ <;> omega
  unfold String.utf8EncodeChar
  generalize c.val.toNat = m at hlt ⊢
  generalize d.val.toNat = n at hlt hmax ⊢
  have htop {k : Nat} (hk : k < 1114112) : k / 262144 % 8 = k / 262144 := by omega
  dsimp only
  split_ifs
  all_goals
    simp (disch := omega) only [List.cons_append, List.nil_append, List.cons_lt_cons_iff,
      ofNat_lt_iff, ofNat_inj, htop, Nat.add_lt_add_iff_right, Nat.add_right_cancel_iff]
    omega

theorem flatMap_utf8EncodeChar_lt {cs ds : List Char} (h : cs < ds) :
    cs.flatMap String.utf8EncodeChar < ds.flatMap String.utf8EncodeChar := by
  induction h with
  | @nil d ds =>
    rw [List.flatMap_nil, List.flatMap_cons]
    cases hd : String.utf8EncodeChar d with
    | nil => exact absurd hd String.utf8EncodeChar_ne_nil
    | cons b bs => exact List.nil_lt_cons b _
  | rel h => exact utf8EncodeChar_append_lt h _ _
  | cons _ ih => exact List.append_left_lt ih

theorem utf8_lt_utf8 {a b : String} (h : a < b) : utf8 a < utf8 b := by
  rw [utf8_eq_flatMap, utf8_eq_flatMap]
  exact flatMap_utf8EncodeChar_lt (String.lt_iff.1 h)

end Text

section Sorted

variable {α : Type} {text : α → String} {as : List α}

theorem mem_of_searchSorted {key : String} {base size : Nat} {x : α}
    (h : searchSorted text as key base size = some x) : x ∈ as ∧ text x = key := by
  fun_induction searchSorted text as key base size with
  | case1 base size hsize a ha hbefore ih => exact ih h
  | case2 base size hsize a ha hbefore ih => exact ih h
  | case3 base size hsize hnone => cases h
  | case4 base size hsize =>
    obtain ⟨hx, htext⟩ := Option.filter_eq_some_iff.1 h
    exact ⟨List.mem_of_getElem? hx, of_decide_eq_true htext⟩

theorem searchSorted_map {β : Type} (f : α → β) (text : β → String) (as : List α) (key : String)
    (base size : Nat) : searchSorted text (as.map f) key base size =
      (searchSorted (fun a ↦ text (f a)) as key base size).map f := by
  fun_induction searchSorted (fun a ↦ text (f a)) as key base size with
  | case1 base size hsize a ha hbefore ih =>
    rw [searchSorted, if_pos hsize, List.getElem?_map, ha, Option.map_some]
    exact (if_pos hbefore).trans ih
  | case2 base size hsize a ha hbefore ih =>
    rw [searchSorted, if_pos hsize, List.getElem?_map, ha, Option.map_some]
    exact (if_neg hbefore).trans ih
  | case3 base size hsize hnone =>
    rw [searchSorted, if_pos hsize, List.getElem?_map, hnone]
    rfl
  | case4 base size hsize =>
    rw [searchSorted, if_neg hsize, List.getElem?_map, Option.filter_map]
    rfl

/-- The half that is kept has the item. -/
theorem searchSorted_of_getElem? (hs : as.Pairwise fun a b ↦ text a < text b) {i base size : Nat}
    {x : α} (hi : as[i]? = some x) (hlo : base ≤ i) (hhi : i < base + size)
    (hend : base + size ≤ as.length) : searchSorted text as (text x) base size = some x := by
  have hlt {j k : Nat} {a b : α} (ha : as[j]? = some a) (hb : as[k]? = some b) (hjk : j < k) :
      text a < text b := by
    obtain ⟨hj, rfl⟩ := List.getElem?_eq_some_iff.1 ha
    obtain ⟨hk, rfl⟩ := List.getElem?_eq_some_iff.1 hb
    exact List.pairwise_iff_getElem.1 hs j k hj hk hjk
  generalize hkey : text x = key
  fun_induction searchSorted text as key base size with
  | case1 base size hsize a ha hbefore ih =>
    have hleft : i < base + size / 2 := by
      by_contra hle
      rcases Nat.eq_or_lt_of_le (Nat.le_of_not_lt hle) with rfl | hmid
      · obtain rfl := Option.some.inj (hi.symm.trans ha)
        exact String.lt_irrefl _ (hkey ▸ hbefore)
      · exact String.lt_irrefl _ (String.lt_trans (hlt ha hi hmid) (hkey ▸ hbefore))
    exact ih hlo (by omega) (by omega)
  | case2 base size hsize a ha hbefore ih =>
    have hright : base + size / 2 ≤ i := by
      by_contra hmid
      exact hbefore (hkey ▸ hlt hi ha (Nat.lt_of_not_le hmid))
    exact ih hright (by omega) (by omega)
  | case3 base size hsize hnone =>
    rw [List.getElem?_eq_none_iff] at hnone
    omega
  | case4 base size hsize =>
    obtain rfl : i = base := by omega
    rw [hi, ← hkey]
    simp

/-- In a list that is sorted by texts, a search finds the item with the text. -/
theorem searchSorted_eq_some (hs : as.Pairwise fun a b ↦ text a < text b) {key : String} {x : α} :
    searchSorted text as key 0 as.length = some x ↔ x ∈ as ∧ text x = key := by
  refine ⟨mem_of_searchSorted, ?_⟩
  rintro ⟨hx, rfl⟩
  obtain ⟨i, hi⟩ := List.getElem?_of_mem hx
  have hlt := (List.getElem?_eq_some_iff.1 hi).1
  exact searchSorted_of_getElem? hs hi (Nat.zero_le i) (by omega) (by omega)

theorem mem_dedupSorted [DecidableEq α] {a : α} : a ∈ dedupSorted as ↔ a ∈ as := by
  fun_induction dedupSorted as with
  | case1 => rfl
  | case2 => rfl
  | case3 rest b ih => simp [ih]
  | case4 b c rest hne ih => simp [ih]

theorem dedupSorted_of_nodup [DecidableEq α] (h : as.Nodup) : dedupSorted as = as := by
  fun_induction dedupSorted as with
  | case1 => rfl
  | case2 => rfl
  | case3 rest b ih => exact absurd List.mem_cons_self (List.nodup_cons.1 h).1
  | case4 a b rest hne ih => rw [ih (List.nodup_cons.1 h).2]

theorem nodup_of_increasing (h : as.Pairwise fun a b ↦ text a < text b) : (as.map text).Nodup := by
  rw [List.Nodup, List.pairwise_map]
  refine h.imp ?_
  intro a b hlt heq
  exact String.lt_irrefl _ (heq ▸ hlt)

theorem pairwise_mergeSort_text (text : α → String) (as : List α) :
    (as.mergeSort fun a b ↦ decide (text a ≤ text b)).Pairwise fun a b ↦ text a ≤ text b := by
  let le (a b : α) : Bool := decide (text a ≤ text b)
  have htrans (a b c : α) (hab : le a b = true) (hbc : le b c = true) : le a c = true :=
    decide_eq_true (String.le_trans (of_decide_eq_true hab) (of_decide_eq_true hbc))
  have htotal (a b : α) : (le a b || le b a) = true := by
    simpa [le] using String.le_total (text a) (text b)
  exact (List.pairwise_mergeSort htrans htotal as).imp of_decide_eq_true

theorem mergeSort_of_increasing (h : as.Pairwise fun a b ↦ text a < text b) :
    (as.mergeSort fun a b ↦ decide (text a ≤ text b)) = as :=
  List.mergeSort_of_pairwise (h.imp fun hlt ↦ decide_eq_true (Std.le_of_lt hlt))

theorem find?_eq_some_of_nodup (hn : (as.map text).Nodup) {key : String} {x : α} :
    (as.find? fun a ↦ text a = key) = some x ↔ x ∈ as ∧ text x = key := by
  constructor
  · intro h
    exact ⟨List.mem_of_find?_eq_some h, by simpa using List.find?_some h⟩
  · rintro ⟨hx, rfl⟩
    cases hfind : as.find? fun a ↦ text a = text x with
    | none => exact absurd (decide_eq_true rfl) (List.find?_eq_none.1 hfind x hx)
    | some y =>
      have hy : text y = text x := by simpa using List.find?_some hfind
      rw [List.inj_on_of_nodup_map hn (List.mem_of_find?_eq_some hfind) hx hy]

theorem increasing_dedupSorted {names : List String} (h : names.Pairwise (· ≤ ·)) :
    (dedupSorted names).Pairwise (· < ·) := by
  fun_induction dedupSorted names with
  | case1 => exact .nil
  | case2 a => exact List.pairwise_singleton _ a
  | case3 rest a ih => exact ih h.tail
  | case4 a b rest hne ih =>
    refine List.pairwise_cons.2 ⟨?_, ih h.tail⟩
    intro c hc
    have hab : a < b := Std.lt_of_le_of_ne (List.rel_of_pairwise_cons h List.mem_cons_self) hne
    rcases List.mem_cons.1 (mem_dedupSorted.1 hc) with rfl | hc
    · exact hab
    · exact Std.lt_of_lt_of_le hab (List.rel_of_pairwise_cons h.tail hc)

theorem eq_of_increasing {names names' : List String} (h : names.Pairwise (· < ·))
    (h' : names'.Pairwise (· < ·)) (hmem : ∀ name, name ∈ names ↔ name ∈ names') :
    names = names' := by
  have hperm : names.Perm names' := by
    rw [List.perm_ext_iff_of_nodup (h.imp Std.ne_of_lt) (h'.imp Std.ne_of_lt)]
    exact hmem
  exact hperm.eq_of_pairwise (fun _ _ _ _ hlt hlt' ↦ absurd hlt' (String.lt_asymm hlt)) h h'

end Sorted

end Fabric
