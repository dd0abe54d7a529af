import Fabric.Proofs.Vhdl.Lines

namespace Fabric

namespace HwType

variable {s t u : HwType}

/-- The order of types goes by the kinds first. -/
theorem cmp_of_rank_ne (h : s.rank ≠ t.rank) : s.cmp t = compare s.rank t.rank := by
  cases s <;> cases t <;> first | rfl | exact absurd rfl h

theorem rank_le_of_lt (h : s.cmp t = .lt) : s.rank ≤ t.rank := by
  by_contra hlt
  rw [cmp_of_rank_ne (by omega), Nat.compare_eq_lt] at h
  omega

theorem lt_of_rank_lt (h : s.rank < t.rank) : s.cmp t = .lt := by
  rw [cmp_of_rank_ne (by omega), Nat.compare_eq_lt]
  exact h

theorem eq_of_cmp (h : s.cmp t = .eq) : s = t := by
  induction s generalizing t with
  | boolean =>
    cases t with
    | boolean => rfl
    | _ => cases h
  | signed v =>
    cases t with
    | signed w => rw [cmp, Nat.compare_eq_eq, UInt16.toNat_inj] at h; rw [h]
    | _ => cases h
  | unsigned v =>
    cases t with
    | unsigned w => rw [cmp, Nat.compare_eq_eq, UInt16.toNat_inj] at h; rw [h]
    | _ => cases h
  | array element length ih =>
    cases t with
    | array element' length' =>
      obtain ⟨helement, hlength⟩ := Ordering.then_eq_eq.1 h
      rw [Nat.compare_eq_eq, UInt32.toNat_inj] at hlength
      rw [ih helement, hlength]
    | _ => cases h

instance : Std.OrientedCmp cmp where
  eq_swap {s t} := by
    induction s generalizing t with
    | array element length ih =>
      cases t with
      | array element' length' =>
        rw [cmp, cmp, Ordering.swap_then, ih, Std.OrientedOrd.eq_swap (a := length.toNat)]
      | _ => rfl
    | _ => cases t <;> first | rfl | exact Std.OrientedOrd.eq_swap

theorem cmp_self (t : HwType) : t.cmp t = .eq := by
  have hswap : t.cmp t = (t.cmp t).swap := Std.OrientedCmp.eq_swap
  cases h : t.cmp t <;> rw [h] at hswap <;> first | rfl | cases hswap

theorem cmp_array_lt {m n : UInt32} :
    (array s m).cmp (array t n) = .lt ↔ s.cmp t = .lt ∨ s = t ∧ m < n := by
  rw [cmp, Ordering.then_eq_lt, Nat.compare_eq_lt, UInt32.lt_iff_toNat_lt]
  refine or_congr_right (and_congr_left fun _ ↦ ⟨eq_of_cmp, ?_⟩)
  rintro rfl
  exact cmp_self s

theorem cmp_lt_trans (h : s.cmp t = .lt) (h' : t.cmp u = .lt) : s.cmp u = .lt := by
  -- What is left is types of one kind.
  have hkind {s t u : HwType} (h : s.cmp t = .lt) (h' : t.cmp u = .lt)
      (hsame : t.rank = s.rank → u.rank = s.rank → s.cmp u = .lt) : s.cmp u = .lt := by
    have hst := rank_le_of_lt h
    have htu := rank_le_of_lt h'
    by_cases hlt : s.rank < u.rank
    · exact lt_of_rank_lt hlt
    · exact hsame (by omega) (by omega)
  induction s generalizing t u with
  | boolean =>
    refine hkind h h' fun ht _ ↦ ?_
    cases t <;> cases ht
    cases h
  | signed v | unsigned v =>
    refine hkind h h' fun ht hu ↦ ?_
    cases t <;> cases ht
    cases u <;> cases hu
    rw [cmp, Nat.compare_eq_lt] at h h' ⊢
    exact h.trans h'
  | array a m ih =>
    refine hkind h h' fun ht hu ↦ ?_
    cases t <;> cases ht
    cases u <;> cases hu
    rw [cmp_array_lt] at h h' ⊢
    rcases h with h | ⟨rfl, hm⟩
    · rcases h' with h' | ⟨rfl, -⟩
      · exact .inl (ih h h')
      · exact .inl h
    · exact h'.imp_right fun h' ↦ ⟨h'.1, UInt32.lt_trans hm h'.2⟩

def IsArray (t : HwType) : Prop :=
  t.element?.isSome

/-- A type occurs in itself, and in the arrays of a type in which it occurs. -/
inductive Within (t : HwType) : HwType → Prop
  | self : Within t t
  | element {s : HwType} (length : UInt32) : Within t s → Within t (.array s length)

theorem Within.isArray {t s : HwType} (h : t.Within s) (ht : t.IsArray) : s.IsArray := by
  cases h with
  | self => exact ht
  | element => rfl

theorem Within.trans {t s u : HwType} (h : t.Within s) (h' : s.Within u) : t.Within u := by
  induction h' with
  | self => exact h
  | element length _ ih => exact .element length ih

end HwType

namespace Vhdl

open Text

variable {s t : HwType} {ts : List HwType}

def Ascending (ts : List HwType) : Prop :=
  ts.Pairwise fun s t ↦ s.cmp t = .lt

theorem mem_insertType : s ∈ insertType t ts ↔ s = t ∨ s ∈ ts := by
  induction ts with
  | nil => rw [insertType, List.mem_singleton, List.mem_nil_iff, or_false]
  | cons u ts ih =>
    rw [insertType]
    split
    · exact List.mem_cons
    next h =>
      obtain rfl := HwType.eq_of_cmp h
      simp
    · rw [List.mem_cons, ih, List.mem_cons, or_left_comm]

theorem Ascending.insertType (h : Ascending ts) (t : HwType) : Ascending (insertType t ts) := by
  induction ts with
  | nil => exact List.pairwise_singleton _ _
  | cons u ts ih =>
    obtain ⟨hu, hts⟩ := List.pairwise_cons.1 h
    rw [Vhdl.insertType]
    split
    next hlt =>
      refine List.pairwise_cons.2 ⟨List.forall_mem_cons.2 ⟨hlt, fun s hs ↦ ?_⟩, h⟩
      exact HwType.cmp_lt_trans hlt (hu s hs)
    · exact h
    next hgt =>
      refine List.pairwise_cons.2 ⟨fun s hs ↦ ?_, ih hts⟩
      rcases mem_insertType.1 hs with rfl | hs
      · exact Std.OrientedCmp.lt_of_gt hgt
      · exact hu s hs

theorem Ascending.nodup (h : Ascending ts) : ts.Nodup := by
  refine List.Pairwise.imp ?_ h
  rintro s t hlt rfl
  rw [HwType.cmp_self] at hlt
  cases hlt

variable (m : Manifest)

end Vhdl

end Fabric
