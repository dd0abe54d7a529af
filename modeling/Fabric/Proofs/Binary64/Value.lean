import Fabric.Binary64.Arithmetic
import Mathlib.Algebra.Order.Floor.Semifield
import Mathlib.Tactic

namespace Fabric

namespace Dyadic

def value (d : Dyadic) : ℚ := d.mantissa * 2 ^ d.exponent

theorem den_pos (d : Dyadic) : 0 < d.den := twoPow_pos _

theorem value_eq_div (d : Dyadic) : d.value = d.num / d.den := by
  have hden : (d.den : ℚ) ≠ 0 := by exact_mod_cast d.den_pos.ne'
  have hnum : (d.num : ℚ) = d.mantissa * 2 ^ (d.exponent.toNat : ℤ) := by
    rw [zpow_natCast]
    exact_mod_cast rfl
  have hpow : (d.den : ℚ) = 2 ^ ((-d.exponent).toNat : ℤ) := by
    rw [zpow_natCast]
    exact_mod_cast rfl
  rw [eq_div_iff hden, hnum, hpow, value, mul_assoc, ← zpow_add₀ (by norm_num)]
  congr 2
  omega

/-- The nearest natural number, a tie to the larger one. -/
theorem floor_value (d : Dyadic) : ⌊d.value + 1 / 2⌋₊ = (2 * d.num + d.den) / (2 * d.den) := by
  have hden : (d.den : ℚ) ≠ 0 := by exact_mod_cast d.den_pos.ne'
  have hsum : d.value + 1 / 2 = ((2 * d.num + d.den : Nat) : ℚ) / ((2 * d.den : Nat) : ℚ) := by
    rw [value_eq_div]
    push_cast
    field_simp
  rw [hsum, Nat.floor_div_eq_div]

end Dyadic

namespace Binary64

def value (x : Binary64) : ℚ := x.dyadic.value

def units (magnitude : Nat) : Nat :=
  if magnitude / twoPow 52 = 0 then magnitude % twoPow 52
  else (twoPow 52 + magnitude % twoPow 52) * 2 ^ (magnitude / twoPow 52 - 1)

theorem value_eq_units (x : Binary64) : x.value = units x.magnitude * 2 ^ minExponent := by
  rw [value, dyadic, units, Dyadic.value]
  split
  · rfl
  · rw [zpow_add₀ (by norm_num), zpow_natCast]
    push_cast
    ring

theorem units_strictMono : StrictMono units := by
  refine strictMono_nat_of_lt_succ fun m ↦ ?_
  have hpos : 0 < twoPow 52 := twoPow_pos 52
  generalize hb : m / twoPow 52 = b
  generalize hf : m % twoPow 52 = f
  have hlt : f < twoPow 52 := hf ▸ Nat.mod_lt m hpos
  have hm : m = twoPow 52 * b + f := by rw [← hb, ← hf, Nat.div_add_mod]
  by_cases hcarry : f + 1 < twoPow 52
  -- The fraction grows, in the same binade.
  · have hdiv : (m + 1) / twoPow 52 = b := by
      rw [hm, Nat.add_assoc, Nat.mul_add_div hpos, Nat.div_eq_of_lt hcarry, Nat.add_zero]
    have hmod : (m + 1) % twoPow 52 = f + 1 := by
      rw [hm, Nat.add_assoc, Nat.mul_add_mod, Nat.mod_eq_of_lt hcarry]
    rw [units, units, hdiv, hmod, hb, hf]
    split
    · exact Nat.lt_succ_self f
    · exact Nat.mul_lt_mul_of_pos_right (by omega) (Nat.two_pow_pos _)
  -- The next binade starts.
  · have hnext : m + 1 = twoPow 52 * (b + 1) := by
      rw [hm, Nat.mul_succ]
      omega
    rw [units, units, hnext, Nat.mul_div_cancel_left _ hpos, Nat.mul_mod_right, hb, hf,
      if_neg (Nat.succ_ne_zero b), Nat.add_sub_cancel, Nat.add_zero]
    split
    next hzero =>
      rw [hzero]
      omega
    next hne =>
      obtain ⟨k, rfl⟩ := Nat.exists_eq_succ_of_ne_zero hne
      calc (twoPow 52 + f) * 2 ^ k < twoPow 52 * 2 * 2 ^ k :=
            Nat.mul_lt_mul_of_pos_right (by omega) (Nat.two_pow_pos k)
        _ = twoPow 52 * 2 ^ (k + 1) := by rw [pow_succ, Nat.mul_assoc, Nat.mul_comm 2]

theorem magnitude_eq_of_value_eq {x y : Binary64} (h : x.value = y.value) :
    x.magnitude = y.magnitude := by
  rw [value_eq_units, value_eq_units] at h
  have hunits := mul_right_cancel₀ (zpow_ne_zero minExponent (by norm_num)) h
  exact units_strictMono.injective (by exact_mod_cast hunits)

theorem ext_bits {x y : Binary64} (h : x.bits = y.bits) : x = y := by
  cases x
  cases y
  exact congrArg _ h

theorem eq_of_magnitude_eq {x y : Binary64} (hx : x.isNegative = false) (hy : y.isNegative = false)
    (h : x.magnitude = y.magnitude) : x = y := by
  have hbits {z : Binary64} (hz : z.isNegative = false) : z.magnitude = z.bits.toNat := by
    refine Nat.mod_eq_of_lt ?_
    simpa [isNegative] using hz
  rw [hbits hx, hbits hy] at h
  exact ext_bits (UInt64.toNat_inj.1 h)

theorem isNegative_ofParts {magnitude : Nat} (h : magnitude < twoPow 63) :
    (ofParts false magnitude).isNegative = false := by
  have hlt : magnitude < UInt64.size := h.trans (by decide)
  simpa [isNegative, ofParts, UInt64.toNat_ofNat_of_lt' hlt] using h

theorem magnitude_lt (x : Binary64) : x.magnitude < twoPow 63 :=
  Nat.mod_lt _ (twoPow_pos 63)

/-- A product of a finite number and a number, neither of which has a sign, has none. -/
theorem isNegative_mul {x y : Binary64} (hx : x.isFinite) (hy : y.isFinite)
    (hxs : x.isNegative = false) (hys : y.isNegative = false) : (x * y).isNegative = false := by
  have hnan {z : Binary64} (hz : z.isFinite) : z.isNaN = false ∧ z.isInfinite = false := by
    simp only [isFinite, decide_eq_true_eq, isNaN, isInfinite, decide_eq_false_iff_not] at hz ⊢
    omega
  have hmul : x * y = ofSigned false (x.dyadic.num * y.dyadic.num) (x.dyadic.den * y.dyadic.den) := by
    change mul x y = _
    simp [mul, ofOperands, hnan hx, hnan hy, hxs, hys]
  rw [hmul, ofSigned]
  exact isNegative_ofParts (magnitude_lt _)

theorem isNegative_of_pos {x : Binary64} (h : 0 < x) : x.isNegative = false := by
  have hrank : 0 < x.rank := h.2
  by_contra hneg
  rw [rank, if_pos (by simpa using hneg)] at hrank
  omega

theorem roundWithin_eq_floor {x : Binary64} (h : x.isFinite) (limit : Nat) :
    x.roundWithin limit = min limit ⌊x.value + 1 / 2⌋₊ := by
  rw [roundWithin, if_pos h, value, Dyadic.floor_value]

end Binary64

end Fabric
