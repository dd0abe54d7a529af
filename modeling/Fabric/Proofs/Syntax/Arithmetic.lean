import Fabric.Syntax.Arithmetic
import Mathlib.Data.Int.Bitwise
import Mathlib.Tactic

namespace Fabric

theorem twoPow_eq (n : Nat) : twoPow n = 2 ^ n := rfl

namespace Literal

/-- A word that is reduced to its type, which is of a width from 1 to 64. -/
structure IsReduced (value : Int64) (width : UInt16) (signed : Bool) : Prop where
  pos : 0 < width.toNat
  le : width.toNat ≤ 64
  wrap : wrap (number value width signed) width signed = value

variable {value : Int64} {width : UInt16} {signed : Bool}

theorem bits_of_le (h : width.toNat ≤ 64) : bits width = width.toNat := by
  rw [bits, Nat.min_eq_left h]

theorem wrap_emod (hpos : 0 < width.toNat) (hle : width.toNat ≤ 64) (n : Int) :
    (wrap n width signed).toInt % 2 ^ width.toNat = n % 2 ^ width.toNat := by
  have hdvd : ((2 ^ width.toNat : Nat) : Int) ∣ (Int64.size : Int) := by
    exact_mod_cast Nat.pow_dvd_pow 2 hle
  have hword (m : Int) :
      (Int64.ofInt m).toInt % (2 ^ width.toNat : Nat) = m % (2 ^ width.toNat : Nat) := by
    rw [Int64.toInt_ofInt, ← Int.emod_emod_of_dvd _ hdvd, Int.bmod_emod, Int.emod_emod_of_dvd _ hdvd]
  push_cast at hword
  simp only [wrap, bits_of_le hle, twoPow_eq, hpos.ne', if_false]
  push_cast
  split
  · rw [hword]
    simp
  · rw [hword]
    simp

theorem wrap_signed (hpos : 0 < width.toNat) (hle : width.toNat ≤ 64) (n : Int) :
    (wrap n width true).toInt = n.bmod (2 ^ width.toNat) := by
  obtain ⟨k, hk⟩ : ∃ k, width.toNat = k + 1 := ⟨_, (Nat.succ_pred_eq_of_pos hpos).symm⟩
  have hpow : (2 : Int) ^ k ≤ 2 ^ 63 := by
    exact_mod_cast Nat.pow_le_pow_right (by decide) (by omega : k ≤ 63)
  have h0 := Int.emod_nonneg n (show (2 : Int) ^ (k + 1) ≠ 0 by positivity)
  have h1 := Int.emod_lt_of_pos n (show (0 : Int) < 2 ^ (k + 1) by positivity)
  rw [Int.bmod_def]
  simp only [wrap, bits_of_le hle, twoPow_eq, hk, Nat.succ_ne_zero, if_false, Bool.true_and,
    decide_eq_true_eq, Nat.add_sub_cancel]
  push_cast
  have hhalf : ((2 : Int) ^ (k + 1) + 1) / 2 = 2 ^ k := by
    rw [pow_succ]
    omega
  rw [hhalf]
  rw [pow_succ] at h0 h1 ⊢
  split
  next h =>
    rw [if_neg (by omega), Int64.toInt_ofInt_of_le (by omega) (by omega)]
  next h =>
    rw [if_pos (by omega), Int64.toInt_ofInt_of_le (by omega) (by omega)]

theorem number_emod (h : width.toNat ≤ 64) :
    number value width signed % 2 ^ width.toNat = value.toInt % 2 ^ width.toNat := by
  cases signed with
  | true => rfl
  | false =>
    simp only [number, bits_of_le h, twoPow_eq, Bool.false_eq_true, if_false]
    push_cast
    exact Int.emod_emod _ _

theorem wrap_congr (hle : width.toNat ≤ 64) {m n : Int} (h : m ≡ n [ZMOD 2 ^ width.toNat]) :
    wrap m width signed = wrap n width signed := by
  simp only [wrap, bits_of_le hle, twoPow_eq]
  push_cast
  rw [show m % 2 ^ width.toNat = n % 2 ^ width.toNat from h]

theorem number_wrap_modEq (hpos : 0 < width.toNat) (hle : width.toNat ≤ 64) (n : Int) :
    number (wrap n width signed) width signed ≡ n [ZMOD 2 ^ width.toNat] :=
  (number_emod hle).trans (wrap_emod hpos hle n)

theorem isReduced_wrap (hpos : 0 < width.toNat) (hle : width.toNat ≤ 64) (n : Int) :
    IsReduced (wrap n width signed) width signed :=
  ⟨hpos, hle, wrap_congr hle (number_wrap_modEq hpos hle n)⟩

def InRange (n : Int) (width : UInt16) (signed : Bool) : Prop :=
  if signed then -2 ^ (width.toNat - 1) ≤ n ∧ n < 2 ^ (width.toNat - 1)
  else 0 ≤ n ∧ n < 2 ^ width.toNat

theorem inRange_number (h : IsReduced value width signed) :
    InRange (number value width signed) width signed := by
  obtain ⟨k, hk⟩ : ∃ k, width.toNat = k + 1 := ⟨_, (Nat.succ_pred_eq_of_pos h.pos).symm⟩
  cases signed with
  | true =>
    have hword : value.toInt = value.toInt.bmod (2 ^ width.toNat) := by
      have hwrap := congrArg Int64.toInt h.wrap
      rw [wrap_signed h.pos h.le] at hwrap
      exact hwrap.symm
    have hpow : 0 < 2 ^ width.toNat := Nat.two_pow_pos _
    have hlow := Int.le_bmod (x := value.toInt) hpow
    have hhigh := Int.bmod_lt (x := value.toInt) hpow
    rw [← hword, hk] at hlow hhigh
    simp only [InRange, if_true, number, hk, Nat.add_sub_cancel]
    push_cast at hlow hhigh
    rw [pow_succ] at hlow hhigh
    omega
  | false =>
    simp only [InRange, Bool.false_eq_true, if_false, number, bits_of_le h.le, twoPow_eq]
    push_cast
    exact ⟨Int.emod_nonneg _ (by positivity), Int.emod_lt_of_pos _ (by positivity)⟩

theorem InRange.eq {m n : Int} (hpos : 0 < width.toNat) (hm : InRange m width signed)
    (hn : InRange n width signed) (h : m ≡ n [ZMOD 2 ^ width.toNat]) : m = n := by
  obtain ⟨k, hk⟩ : ∃ k, width.toNat = k + 1 := ⟨_, (Nat.succ_pred_eq_of_pos hpos).symm⟩
  have hlt : |n - m| < 2 ^ width.toNat := by
    rw [abs_lt]
    cases signed with
    | true =>
      simp only [InRange, if_true, hk, Nat.add_sub_cancel] at hm hn
      rw [hk, pow_succ]
      omega
    | false =>
      simp only [InRange, Bool.false_eq_true, if_false] at hm hn
      omega
  have hzero := Int.eq_zero_of_abs_lt_dvd h.dvd hlt
  omega

theorem number_wrap_of_inRange (hpos : 0 < width.toNat) (hle : width.toNat ≤ 64) {n : Int}
    (h : InRange n width signed) : number (wrap n width signed) width signed = n :=
  (inRange_number (isReduced_wrap hpos hle n)).eq hpos h (number_wrap_modEq hpos hle n)

/-- The literal of a type whose number is congruent to a given one. -/
def IsReduction (l : Literal) (width : UInt16) (signed : Bool) (n : Int) : Prop :=
  ∃ value, l = .int value width signed ∧ IsReduced value width signed ∧
    number value width signed ≡ n [ZMOD 2 ^ width.toNat]

theorem isReduction_ofNumber (hpos : 0 < width.toNat) (hle : width.toNat ≤ 64) {m n : Int}
    (h : m ≡ n [ZMOD 2 ^ width.toNat]) : (ofNumber m width signed).IsReduction width signed n :=
  ⟨_, rfl, isReduced_wrap hpos hle m, (number_wrap_modEq hpos hle m).trans h⟩

theorem IsReduction.modEq {l : Literal} {m n : Int} (hm : l.IsReduction width signed m)
    (hn : l.IsReduction width signed n) : m ≡ n [ZMOD 2 ^ width.toNat] := by
  obtain ⟨value, rfl, -, hvalue⟩ := hm
  obtain ⟨value', heq, -, hvalue'⟩ := hn
  cases heq
  exact hvalue.symm.trans hvalue'

theorem testBit_residue (w : Nat) (n : Int) (i : Nat) :
    (n % 2 ^ w).toNat.testBit i = (decide (i < w) && n.testBit i) := by
  have hpow : (2 : Int) ^ w = (2 ^ w : Nat) := by push_cast; rfl
  cases n with
  | ofNat m =>
    rw [hpow, Int.ofNat_eq_natCast, ← Int.natCast_emod, Int.toNat_natCast, Nat.testBit_mod_two_pow]
    rfl
  | negSucc m =>
    have hlt : m % 2 ^ w < 2 ^ w := Nat.mod_lt _ (Nat.two_pow_pos w)
    have hneg : (Int.negSucc m % (2 ^ w : Nat)).toNat = 2 ^ w - (m % 2 ^ w + 1) := by
      rw [Int.negSucc_emod m (by positivity), ← Int.natCast_emod]
      omega
    rw [hpow, hneg, Nat.testBit_two_pow_sub_succ hlt, Nat.testBit_mod_two_pow]
    by_cases hi : i < w <;> simp [hi, Int.testBit]

theorem bitwise_modEq {w : Nat} (hle : w ≤ 64) {f : Nat → Nat → Nat} {g : Int → Int → Int}
    (op : Bool → Bool → Bool) (hf : ∀ m n i, (f m n).testBit i = op (m.testBit i) (n.testBit i))
    (hg : ∀ m n i, (g m n).testBit i = op (m.testBit i) (n.testBit i)) (x y : Int) :
    bitwise f x y ≡ g x y [ZMOD 2 ^ w] := by
  have hbits : (bitwise f x y % 2 ^ w).toNat = (g x y % 2 ^ w).toNat := by
    refine Nat.eq_of_testBit_eq fun i ↦ ?_
    rw [testBit_residue, testBit_residue, hg]
    by_cases hi : i < w
    · have hword (n : Int) : (n % twoPow 64).toNat.testBit i = n.testBit i := by
        rw [show ((twoPow 64 : Nat) : Int) = 2 ^ 64 from rfl, testBit_residue]
        simp [show i < 64 by omega]
      have hcast : (bitwise f x y).testBit i =
          (f (x % twoPow 64).toNat (y % twoPow 64).toNat).testBit i := rfl
      rw [hcast, hf, hword, hword]
    · simp [hi]
  have hx := Int.emod_nonneg (bitwise f x y) (show (2 : Int) ^ w ≠ 0 by positivity)
  have hy := Int.emod_nonneg (g x y) (show (2 : Int) ^ w ≠ 0 by positivity)
  rw [Int.ModEq]
  omega

end Literal

namespace BinaryOp

/-- The exact result of an arithmetic operator: quotients are truncated, remainders have the sign of the
dividend, and the operators on bits are those of two's complement. -/
def exact : BinaryOp → Int → Int → Option Int
  | .add, x, y => some (x + y)
  | .sub, x, y => some (x - y)
  | .mul, x, y => some (x * y)
  | .div, x, y => some (x.tdiv y)
  | .rem, x, y => some (x.tmod y)
  | .bitAnd, x, y => some (x.land y)
  | .bitOr, x, y => some (x.lor y)
  | .bitXor, x, y => some (x.xor y)
  | _, _, _ => none

end BinaryOp

namespace Literal

variable {a b : Int64} {width : UInt16} {signed : Bool}

theorem exists_evalShift {op : BinaryOp} (hop : op.isShift) (x : Int) (k : Nat) :
    ∃ n, evalShift op x k = some n := by
  cases op <;> first | exact ⟨_, rfl⟩ | cases hop

theorem evalShift_of_not_isShift {op : BinaryOp} (hop : ¬op.isShift) (x : Int) (k : Nat) :
    evalShift op x k = none := by
  cases op <;> first | rfl | exact absurd rfl hop

theorem evalBinary_of_evalShift {op : BinaryOp} {width' : UInt16} {signed' : Bool} {n : Int}
    (h : evalShift op (number a width signed)
      (shiftAmount (number b width' signed') width) = some n)
    (hlt : shiftAmount (number b width' signed') width < 128) :
    evalBinary op (.int a width signed) (.int b width' signed') =
      .ok (some (ofNumber n width signed)) := by
  simp only [evalBinary, h, hlt, if_true]

theorem evalBinary_of_not_shift {op : BinaryOp} (hop : ¬op.isShift) (a b : Int64) :
    evalBinary op (.int a width signed) (.int b width signed) =
      match compare op (number a width signed) (number b width signed) with
      | some r => .ok (some (.bool r))
      | none => .ok ((evalNumber op (number a width signed) (number b width signed)).map fun n ↦
        ofNumber n width signed) := by
  have htypes : ¬(width ≠ width ∨ signed ≠ signed) := by simp
  unfold evalBinary
  dsimp only
  rewrite [evalShift_of_not_isShift hop, if_neg htypes]
  rfl

theorem shiftAmount_lt {width : UInt16} (hle : width.toNat ≤ 64) (y : Int) :
    shiftAmount y width < 128 := by
  have hand : shiftAmount y width ≤ max width.toNat 1 - 1 := Nat.and_le_right
  omega

theorem shiftAmount_eq {y : Int} (hle : width.toNat ≤ 64) (hy : 0 ≤ y) (hlt : y < width.toNat) :
    shiftAmount y width = y.toNat &&& (width.toNat - 1) := by
  have hword : y % twoPow 128 = y := by
    apply Int.emod_eq_of_lt hy
    have hbound : (64 : Int) < twoPow 128 := by decide
    omega
  rw [shiftAmount, hword, show max width.toNat 1 = width.toNat by omega]

theorem shiftAmount_le {y : Int} (hle : width.toNat ≤ 64) (hy : 0 ≤ y) (hlt : y < width.toNat) :
    shiftAmount y width ≤ y.toNat :=
  (shiftAmount_eq hle hy hlt).trans_le Nat.and_le_left

theorem pow_modEq {i j w : Nat} (hi : i < w) (hj : j < w) (h : (2 : Int) ^ i ≡ 2 ^ j [ZMOD 2 ^ w]) :
    i = j := by
  have hlt {k : Nat} (hk : k < w) : (2 : Int) ^ k < 2 ^ w := pow_lt_pow_right₀ (by decide) hk
  rw [Int.ModEq, Int.emod_eq_of_lt (by positivity) (hlt hi), Int.emod_eq_of_lt (by positivity) (hlt hj)]
    at h
  exact Nat.pow_right_injective (le_refl 2) (by exact_mod_cast h)

theorem inRange_one (h : 1 < width.toNat) (signed : Bool) : InRange 1 width signed := by
  have hpow : (2 : Int) ^ 1 ≤ 2 ^ (width.toNat - 1) := pow_le_pow_right₀ (by decide) (by omega)
  have hlt : (2 : Int) ^ 0 < 2 ^ width.toNat := pow_lt_pow_right₀ (by decide) (by omega)
  cases signed <;> simp only [InRange] <;> constructor <;> omega

theorem InRange.ediv {n : Int} (k : Nat) (h : InRange n width signed) :
    InRange (n / 2 ^ k) width signed := by
  have hpow : (1 : Int) ≤ 2 ^ k := one_le_pow₀ (by decide)
  cases signed with
  | true =>
    simp only [InRange, if_true] at h ⊢
    have hw : (0 : Int) < 2 ^ (width.toNat - 1) := by positivity
    refine ⟨?_, ?_⟩
    · rw [Int.le_ediv_iff_mul_le (by omega)]
      nlinarith
    · rw [Int.ediv_lt_iff_lt_mul (by omega)]
      nlinarith
  | false =>
    simp only [InRange, Bool.false_eq_true, if_false] at h ⊢
    exact ⟨Int.ediv_nonneg h.1 (by omega), lt_of_le_of_lt (Int.ediv_le_self _ h.1) h.2⟩

/-- A shift of every integer of a type by an amount is exact: to the left it multiplies modulo the power
of two of the width, to the right it divides and rounds down. -/
def ShiftsExactly (width : UInt16) (signed : Bool) (amount : Literal) (k : Nat) : Prop :=
  ∀ a, IsReduced a width signed →
    (∃ l, evalBinary .shl (.int a width signed) amount = .ok (some l) ∧
      l.IsReduction width signed (number a width signed * 2 ^ k)) ∧
    ∃ b, evalBinary .shr (.int a width signed) amount = .ok (some (.int b width signed)) ∧
      IsReduced b width signed ∧ number b width signed = number a width signed / 2 ^ k

theorem shiftsExactly_of_shiftAmount (hpos : 0 < width.toNat) (hle : width.toNat ≤ 64)
    {width' : UInt16} {signed' : Bool} {k : Nat}
    (h : shiftAmount (number b width' signed') width = k) :
    ShiftsExactly width signed (.int b width' signed') k := by
  intro a ha
  have hlt := shiftAmount_lt hle (number b width' signed')
  subst h
  constructor
  · refine ⟨_, evalBinary_of_evalShift rfl hlt, isReduction_ofNumber hpos hle ?_⟩
    rw [twoPow_eq]
    push_cast
    rfl
  · refine ⟨_, evalBinary_of_evalShift rfl hlt, isReduced_wrap hpos hle _, ?_⟩
    rw [twoPow_eq]
    push_cast
    exact number_wrap_of_inRange hpos hle ((inRange_number ha).ediv _)

/-- A shift by an amount that is less than the width is exact if masking the amount by the width less
one does not change it, and only then. -/
theorem shiftsExactly_iff (hpos : 0 < width.toNat) (hle : width.toNat ≤ 64) (signed : Bool)
    {width' : UInt16} {signed' : Bool} (hk : 0 ≤ number b width' signed')
    (hlt : number b width' signed' < width.toNat) :
    ShiftsExactly width signed (.int b width' signed') (number b width' signed').toNat ↔
      (number b width' signed').toNat &&& (width.toNat - 1) = (number b width' signed').toNat := by
  rw [← shiftAmount_eq hle hk hlt]
  refine ⟨fun h ↦ ?_, shiftsExactly_of_shiftAmount hpos hle⟩
  have hamount := shiftAmount_le hle hk hlt
  rcases Nat.eq_or_lt_of_le hpos with hone | htwo
  · omega
  -- One is a number of the type, and its shifts are powers that are told apart.
  · have hinRange : InRange 1 width signed := inRange_one htwo signed
    obtain ⟨⟨l, hl, hexact⟩, -⟩ := h _ (isReduced_wrap hpos hle 1)
    obtain ⟨⟨l', hl', hshifted⟩, -⟩ :=
      shiftsExactly_of_shiftAmount hpos hle rfl _ (isReduced_wrap hpos hle 1)
    obtain rfl : l' = l := Option.some_inj.1 (Except.ok.inj (hl'.symm.trans hl))
    rw [number_wrap_of_inRange hpos hle hinRange, one_mul] at hexact hshifted
    exact pow_modEq (by omega) (by omega) (hshifted.modEq hexact)

/-- In six bits the amount four is not changed when it is masked. -/
theorem shiftsExactly_six_four :
    0 < (6 : UInt16).toNat ∧ (6 : UInt16).toNat ≤ 64 ∧ 0 ≤ number 4 32 true ∧
      number 4 32 true < (6 : UInt16).toNat ∧ ShiftsExactly 6 true (.int 4 32 true) 4 :=
  ⟨by decide, by decide, by decide, by decide,
    (shiftsExactly_iff (by decide) (by decide) true (by decide) (by decide)).2 rfl⟩

/-- In six bits the amount two is masked to zero: one shifted to the left by two is one, not four. -/
theorem not_shiftsExactly_six_two :
    0 ≤ number 2 32 true ∧ number 2 32 true < (6 : UInt16).toNat ∧
      evalBinary .shl (.int 1 6 false) (.int 2 32 true) = .ok (some (.int 1 6 false)) ∧
        ¬ShiftsExactly 6 false (.int 2 32 true) (number 2 32 true).toNat := by
  have hone : IsReduced 1 6 false := ⟨by decide, by decide, by decide⟩
  have hshl : evalBinary .shl (.int 1 6 false) (.int 2 32 true) = .ok (some (.int 1 6 false)) := rfl
  refine ⟨by decide, by decide, hshl, fun h ↦ ?_⟩
  obtain ⟨⟨l, hl, hexact⟩, -⟩ := h 1 hone
  obtain rfl : .int 1 6 false = l := Option.some_inj.1 (Except.ok.inj (hshl.symm.trans hl))
  exact absurd (IsReduction.modEq ⟨1, rfl, hone, rfl⟩ hexact) (by decide)

end Literal

end Fabric
