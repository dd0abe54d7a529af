import Mathlib.Data.List.Basic

namespace Fabric

variable {α σ : Type}

def Separated (ok : α → Prop) (write : α → List σ) : Prop :=
  ∀ ⦃a b : α⦄, ok a → ok b → ∀ ⦃r s : List σ⦄, write a ++ r = write b ++ s → a = b ∧ r = s

theorem Separated.flatMap_inj {ok : α → Prop} {write : α → List σ} (h : Separated ok write)
    (hne : ∀ a, write a ≠ []) {as bs : List α} (has : ∀ a ∈ as, ok a) (hbs : ∀ b ∈ bs, ok b)
    (heq : as.flatMap write = bs.flatMap write) : as = bs := by
  induction as generalizing bs with
  | nil =>
    cases bs with
    | nil => rfl
    | cons b bs =>
      have hnil := List.append_eq_nil_iff.1 heq.symm
      exact absurd hnil.1 (hne b)
  | cons a as ih =>
    cases bs with
    | nil =>
      have hnil := List.append_eq_nil_iff.1 heq
      exact absurd hnil.1 (hne a)
    | cons b bs =>
      rw [List.forall_mem_cons] at has hbs
      obtain ⟨rfl, hrest⟩ := h has.1 hbs.1 heq
      rw [ih has.2 hbs.2 hrest]

/-- Two lists that end at the first item outside a class are the same. -/
theorem append_cons_inj {p : σ → Prop} {as bs r s : List σ} {c d : σ} (has : ∀ x ∈ as, p x)
    (hbs : ∀ x ∈ bs, p x) (hc : ¬ p c) (hd : ¬ p d) (h : as ++ c :: r = bs ++ d :: s) :
    as = bs ∧ c :: r = d :: s := by
  induction as generalizing bs with
  | nil =>
    cases bs with
    | nil => exact ⟨rfl, h⟩
    | cons b bs => exact absurd ((List.cons.inj h).1 ▸ hbs b List.mem_cons_self) hc
  | cons a as ih =>
    cases bs with
    | nil => exact absurd ((List.cons.inj h).1 ▸ has a List.mem_cons_self) hd
    | cons b bs =>
      rw [List.forall_mem_cons] at has hbs
      obtain ⟨rfl, htail⟩ := List.cons.inj h
      obtain ⟨rfl, hrest⟩ := ih has.2 hbs.2 htail
      exact ⟨rfl, hrest⟩

namespace Text

theorem toString_injective {m n : Nat} (h : toString m = toString n) : m = n := by
  rw [Nat.toString_eq_ofList_toDigits, Nat.toString_eq_ofList_toDigits] at h
  have hd := String.ofList_injective h
  rw [← Nat.ofDigitChars_ten_toDigits (n := m), hd, Nat.ofDigitChars_ten_toDigits]

theorem isDigit_of_mem_toString {n : Nat} {c : Char} (h : c ∈ (toString n).toList) :
    c.isDigit := by
  rw [Nat.toString_eq_ofList_toDigits, String.toList_ofList] at h
  exact Nat.isDigit_of_mem_toDigits (by decide) (by decide) h

theorem toString_append_inj {m n : Nat} {c : Char} {r s : List Char} (hc : ¬ c.isDigit)
    (h : (toString m).toList ++ c :: r = (toString n).toList ++ c :: s) : m = n ∧ r = s := by
  obtain ⟨hdigits, hrest⟩ := append_cons_inj (p := fun x ↦ x.isDigit)
    (fun _ ↦ isDigit_of_mem_toString) (fun _ ↦ isDigit_of_mem_toString) hc hc h
  exact ⟨toString_injective (String.toList_inj.1 hdigits), (List.cons.inj hrest).2⟩

theorem toList_append_inj {a b : String} {r s : List Char}
    (hsize : a.utf8ByteSize = b.utf8ByteSize) (h : a.toList ++ r = b.toList ++ s) :
    a = b ∧ r = s := by
  have htexts : a ++ String.ofList r = b ++ String.ofList s := by
    rw [← String.toList_inj, String.toList_append, String.toList_append, String.toList_ofList,
      String.toList_ofList, h]
  have hbytes := congrArg (fun x ↦ x.toByteArray.data.toList) htexts
  simp only [String.toByteArray_append, ByteArray.toList_data_append] at hbytes
  have hlength : a.toByteArray.data.toList.length = b.toByteArray.data.toList.length := by
    rw [Array.length_toList, Array.length_toList]
    exact hsize
  have hdata := List.append_inj_left hbytes hlength
  obtain rfl : a = b := String.toByteArray_inj.1 (ByteArray.ext (Array.toList_inj.1 hdata))
  exact ⟨rfl, List.append_cancel_left h⟩

end Text

end Fabric
