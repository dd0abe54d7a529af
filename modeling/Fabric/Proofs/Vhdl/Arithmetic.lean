import Fabric.Proofs.Syntax.Arithmetic
import Fabric.Vhdl.Expr
import Mathlib.Tactic
import Fabric.Lowering.Operand

/-!
What expressions of the generated language denote. Numbers are vectors of bits, which are read with
a sign or without one. The operators are those of the numeric package of the language: sums,
differences and quotients have the width of their operands, products have twice that width, and a
signed vector that is made narrower keeps its sign. Arrays and aggregates are left out.

A constant of a type has the number that its bits stand for in that type, and the operators on vectors
do on numbers what is done when constants are folded, except where a signed vector is made narrower.
-/

namespace Fabric.Vhdl

/-- A value of the generated language. -/
inductive Datum
  | bool (value : Bool)
  | vector (signed : Bool) (width : Nat) (bits : BitVec width)

namespace Datum

variable {width : Nat}

def number (signed : Bool) (bits : BitVec width) : Int :=
  if signed then bits.toInt else bits.toNat

def keepSign (bits : BitVec width) : (target : Nat) → BitVec target
  | 0 => 0#0
  | target + 1 => .cons bits.msb (bits.setWidth target)

def resizeBits (signed : Bool) (bits : BitVec width) (target : Nat) : BitVec target :=
  if signed then if width ≤ target then bits.signExtend target else keepSign bits target
  else bits.setWidth target

def productBits (signed : Bool) (a b : BitVec width) : BitVec (width + width) :=
  if signed then a.signExtend _ * b.signExtend _ else a.setWidth _ * b.setWidth _

def negate : Datum → Option Datum
  -- Without a sign this is the difference from zero; the package itself has only the signed form.
  | .vector signed width bits => some (.vector signed width (-bits))
  | .bool _ => none

def complement : Datum → Option Datum
  | .vector signed width bits => some (.vector signed width (~~~bits))
  | .bool value => some (.bool !value)

def vectors (op : HwBinaryOp) (signed : Bool) (a b : BitVec width) : Option Datum :=
  match op with
  | .add => some (.vector signed width (a + b))
  | .sub => some (.vector signed width (a - b))
  | .mul => some (.vector signed _ (productBits signed a b))
  | .div => if b = 0 then none else some (.vector signed width (if signed then a.sdiv b else a / b))
  | .rem => if b = 0 then none else some (.vector signed width (if signed then a.srem b else a % b))
  | .and => some (.vector signed width (a &&& b))
  | .or => some (.vector signed width (a ||| b))
  | .xor => some (.vector signed width (a ^^^ b))
  | .shl | .shr => none
  | .eq => some (.bool (number signed a == number signed b))
  | .ne => some (.bool (number signed a != number signed b))
  | .lt => some (.bool (number signed a < number signed b))
  | .le => some (.bool (number signed a ≤ number signed b))
  | .gt => some (.bool (number signed b < number signed a))
  | .ge => some (.bool (number signed b ≤ number signed a))

def booleans : HwBinaryOp → Bool → Bool → Option Datum
  | .and, a, b => some (.bool (a && b))
  | .or, a, b => some (.bool (a || b))
  | .xor, a, b | .ne, a, b => some (.bool (a != b))
  | .eq, a, b => some (.bool (a == b))
  | _, _, _ => none

def operation (op : HwBinaryOp) : Datum → Datum → Option Datum
  | .vector signed width a, .vector signed' width' b =>
    if h : width' = width then
      if signed' = signed then vectors op signed a (b.cast h) else none
    else none
  | .bool a, .bool b => booleans op a b
  | _, _ => none

def amount? : Datum → Option Nat
  | .vector signed _ bits =>
    if 0 ≤ number signed bits then some (number signed bits).toNat else none
  | .bool _ => none

def shiftLeft : Datum → Nat → Option Datum
  | .vector signed width bits, n => some (.vector signed width (bits <<< n))
  | .bool _, _ => none

def shiftRight : Datum → Nat → Option Datum
  | .vector signed width bits, n =>
    some (.vector signed width (if signed then bits.sshiftRight n else bits >>> n))
  | .bool _, _ => none

def resize (target : Nat) : Datum → Option Datum
  | .vector signed _ bits => some (.vector signed target (resizeBits signed bits target))
  | .bool _ => none

def read (signed : Bool) : Datum → Option Datum
  | .vector _ width bits => some (.vector signed width bits)
  | .bool _ => none

def isNonzero : Datum → Option Datum
  | .vector _ _ bits => some (.bool (bits != 0))
  | .bool _ => none

def ofLiteral : Literal → Datum
  | .bool value => .bool value
  | .int value width signed => .vector signed width.toNat (.ofInt _ value.toInt)

end Datum

def Code.denote (names : String → Option Datum) : Code → Option Datum
  | .name text => names text
  | .bool value => some (.bool value)
  | .toSigned value width => some (.vector true width (.ofInt width value))
  | .toUnsigned value width =>
    if 0 ≤ value then some (.vector false width (.ofInt width value)) else none
  | .signedBits bits => some (.vector true _ (.ofBoolListBE bits))
  | .unsignedBits bits => some (.vector false _ (.ofBoolListBE bits))
  | .negate operand => (operand.denote names).bind Datum.negate
  | .complement operand => (operand.denote names).bind Datum.complement
  | .product lhs rhs =>
    (lhs.denote names).bind fun a ↦ (rhs.denote names).bind (Datum.operation .mul a)
  | .operation op lhs rhs =>
    (lhs.denote names).bind fun a ↦ (rhs.denote names).bind (Datum.operation op a)
  | .shiftLeft operand amount =>
    (operand.denote names).bind fun a ↦
      ((amount.denote names).bind Datum.amount?).bind a.shiftLeft
  | .shiftRight operand amount =>
    (operand.denote names).bind fun a ↦
      ((amount.denote names).bind Datum.amount?).bind a.shiftRight
  | .resize operand width => (operand.denote names).bind (Datum.resize width)
  | .asSigned operand => (operand.denote names).bind (Datum.read true)
  | .asUnsigned operand => (operand.denote names).bind (Datum.read false)
  | .isNonzero operand => (operand.denote names).bind Datum.isNonzero
  | .zeroBits | .others _ | .select _ _ => none

end Fabric.Vhdl

namespace Fabric

namespace Literal

def KeepsSign (n : Int) (width : UInt16) : Prop :=
  n < 0 ↔ (wrap n width true).toInt < 0

end Literal

namespace Vhdl

open Datum

theorem ofInt_eq_iff {w : Nat} {x y : Int} :
    BitVec.ofInt w x = BitVec.ofInt w y ↔ x % 2 ^ w = y % 2 ^ w := by
  rw [← BitVec.toNat_inj, BitVec.toNat_ofInt, BitVec.toNat_ofInt]
  have hpow : ((2 ^ w : Nat) : Int) = 2 ^ w := by push_cast; rfl
  have hx := Int.emod_nonneg x (show (2 : Int) ^ w ≠ 0 by positivity)
  have hy := Int.emod_nonneg y (show (2 : Int) ^ w ≠ 0 by positivity)
  rw [hpow]
  omega

section

variable {value : Int64} {width : UInt16} {signed : Bool}

theorem ofInt_wrap (hpos : 0 < width.toNat) (hle : width.toNat ≤ 64) (n : Int) :
    BitVec.ofInt width.toNat (Literal.wrap n width signed).toInt = BitVec.ofInt width.toNat n :=
  ofInt_eq_iff.2 (Literal.wrap_emod hpos hle n)

theorem ofInt_number (hle : width.toNat ≤ 64) :
    BitVec.ofInt width.toNat (Literal.number value width signed) =
      BitVec.ofInt width.toNat value.toInt :=
  ofInt_eq_iff.2 (Literal.number_emod hle)

theorem toInt_wrap (hpos : 0 < width.toNat) (hle : width.toNat ≤ 64) (n : Int) :
    (Literal.wrap n width true).toInt = (BitVec.ofInt width.toNat n).toInt := by
  rw [Literal.wrap_signed hpos hle, BitVec.toInt_ofInt]

theorem wrap_eq_iff (hpos : 0 < width.toNat) (hle : width.toNat ≤ 64) {m n : Int} :
    Literal.wrap m width signed = Literal.wrap n width signed ↔
      BitVec.ofInt width.toNat m = BitVec.ofInt width.toNat n := by
  constructor
  · intro h
    rw [← ofInt_wrap hpos hle m, h, ofInt_wrap hpos hle n]
  · intro h
    exact Literal.wrap_congr hle (ofInt_eq_iff.1 h)

theorem ofLiteral_ofNumber (hpos : 0 < width.toNat) (hle : width.toNat ≤ 64) (n : Int) :
    ofLiteral (.ofNumber n width signed) = .vector signed width.toNat (.ofInt _ n) := by
  rw [Literal.ofNumber, ofLiteral, ofInt_wrap hpos hle]

/-- A constant has the number that its bits stand for. -/
theorem number_ofInt (h : Literal.IsReduced value width signed) :
    number signed (BitVec.ofInt width.toNat value.toInt) = Literal.number value width signed := by
  cases signed with
  | true =>
    have hwrap := congrArg Int64.toInt h.wrap
    rw [toInt_wrap h.pos h.le] at hwrap
    exact hwrap
  | false =>
    have hpow : ((2 ^ width.toNat : Nat) : Int) = 2 ^ width.toNat := by push_cast; rfl
    have hpos := Int.emod_nonneg value.toInt (show (2 : Int) ^ width.toNat ≠ 0 by positivity)
    simp only [number, Literal.number, Literal.bits_of_le h.le, twoPow_eq, Bool.false_eq_true,
      if_false, BitVec.toNat_ofInt, hpow]
    omega

end

variable {w : Nat} {signed : Bool}

theorem ofInt_number_eq (bits : BitVec w) : BitVec.ofInt w (number signed bits) = bits := by
  cases signed with
  | true => exact BitVec.ofInt_toInt
  | false =>
    simp only [number, Bool.false_eq_true, if_false, BitVec.ofInt_natCast, BitVec.ofNat_toNat,
      BitVec.setWidth_eq]

/-- A narrower vector has the reduced number, unless the vector is signed and the reduction would
change the sign. -/
theorem resizeBits_eq_iff (bits : BitVec w) {target : Nat} (ht : 0 < target) :
    resizeBits signed bits target = BitVec.ofInt target (number signed bits) ↔
      (signed = true → target < w →
        (number signed bits < 0 ↔ (BitVec.ofInt target (number signed bits)).toInt < 0)) := by
  cases signed with
  | false =>
    simp [resizeBits, number, BitVec.ofInt_natCast, BitVec.ofNat_toNat]
  | true =>
    simp only [resizeBits, number, if_true, true_implies]
    split
    next hle =>
      refine ⟨fun _ h ↦ ?_, fun _ ↦ rfl⟩
      omega
    next hlt =>
      obtain ⟨k, rfl⟩ : ∃ k, target = k + 1 := ⟨_, (Nat.succ_pred_eq_of_pos ht).symm⟩
      have hcut : BitVec.ofInt (k + 1) bits.toInt = bits.setWidth (k + 1) :=
        bits.signExtend_eq_setWidth_of_le (by omega)
      have hlow : (bits.setWidth (k + 1)).setWidth k = bits.setWidth k :=
        BitVec.setWidth_setWidth_of_le _ (by omega)
      rw [hcut]
      have hcons := BitVec.cons_msb_setWidth (bits.setWidth (k + 1))
      rw [hlow] at hcons
      have hmsb : (bits.toInt < 0 ↔ (bits.setWidth (k + 1)).toInt < 0) ↔
          bits.msb = (bits.setWidth (k + 1)).msb := by
        rw [BitVec.msb_eq_toInt, BitVec.msb_eq_toInt, decide_eq_decide]
      rw [hmsb, keepSign]
      constructor
      · intro h _
        rw [← h, BitVec.msb_cons]
      · intro h
        rw [h (by omega), hcons]

theorem number_productBits (hw : 0 < w) (a b : BitVec w) :
    number signed (productBits signed a b) = number signed a * number signed b := by
  cases signed with
  | true =>
    obtain ⟨k, rfl⟩ : ∃ k, w = k + 1 := ⟨_, (Nat.succ_pred_eq_of_pos hw).symm⟩
    have hpos : (0 : Int) < 2 ^ k := by positivity
    have ha : |a.toInt| ≤ 2 ^ k := abs_le.2 ⟨a.le_toInt, le_of_lt a.toInt_lt⟩
    have hb : |b.toInt| ≤ 2 ^ k := abs_le.2 ⟨b.le_toInt, le_of_lt b.toInt_lt⟩
    have hab : |a.toInt * b.toInt| ≤ 2 ^ k * 2 ^ k := by
      rw [abs_mul]
      exact mul_le_mul ha hb (abs_nonneg _) hpos.le
    have hsquare : (0 : Int) < 2 ^ k * 2 ^ k := mul_pos hpos hpos
    have hpow : ((2 ^ (k + 1 + (k + 1)) : Nat) : Int) = 4 * (2 ^ k * 2 ^ k) := by
      push_cast
      ring
    obtain ⟨hlow, hhigh⟩ := abs_le.1 hab
    simp only [number, productBits, if_true]
    rw [BitVec.toInt_mul, BitVec.toInt_signExtend_of_le (by omega),
      BitVec.toInt_signExtend_of_le (by omega), Int.bmod_eq_of_le]
    · rw [hpow]
      omega
    · rw [hpow]
      omega
  | false =>
    have hlt : a.toNat * b.toNat < 2 ^ (w + w) := by
      rw [pow_add]
      exact Nat.mul_lt_mul'' a.isLt b.isLt
    have hle : 2 ^ w ≤ 2 ^ (w + w) := Nat.pow_le_pow_right (by decide) (by omega)
    simp only [number, productBits, Bool.false_eq_true, if_false]
    rw [BitVec.toNat_mul, BitVec.toNat_setWidth, BitVec.toNat_setWidth,
      Nat.mod_eq_of_lt (lt_of_lt_of_le a.isLt hle), Nat.mod_eq_of_lt (lt_of_lt_of_le b.isLt hle),
      Nat.mod_eq_of_lt hlt]
    push_cast
    rfl

theorem ofInt_complement (x : Int) : BitVec.ofInt w (-x - 1) = ~~~BitVec.ofInt w x := by
  have hone : BitVec.ofInt w (-1) = -1#w := by
    rw [BitVec.ofInt_neg]
    rfl
  rw [Int.sub_eq_add_neg, BitVec.ofInt_add, BitVec.ofInt_neg, hone, BitVec.neg_eq_not_add]
  grind

theorem ne_zero_of_number {b : BitVec w} (h : number signed b ≠ 0) : b ≠ 0 := by
  rintro rfl
  cases signed <;> simp [number] at h

theorem ofInt_tdiv {a b : BitVec w} :
    BitVec.ofInt w ((number signed a).tdiv (number signed b)) =
      if signed then a.sdiv b else a / b := by
  cases signed with
  | true =>
    apply BitVec.eq_of_toInt_eq
    rw [if_pos rfl, BitVec.toInt_sdiv, BitVec.toInt_ofInt]
    rfl
  | false =>
    apply BitVec.eq_of_toNat_eq
    simp only [number, Bool.false_eq_true, if_false]
    rw [← Int.ofNat_tdiv, BitVec.ofInt_natCast, BitVec.toNat_ofNat, BitVec.toNat_udiv]
    exact Nat.mod_eq_of_lt (lt_of_le_of_lt (Nat.div_le_self _ _) a.isLt)

theorem ofInt_tmod {a b : BitVec w} :
    BitVec.ofInt w ((number signed a).tmod (number signed b)) =
      if signed then a.srem b else a % b := by
  cases signed with
  | true =>
    rw [if_pos rfl, ← BitVec.ofInt_toInt (x := a.srem b), BitVec.toInt_srem]
    rfl
  | false =>
    apply BitVec.eq_of_toNat_eq
    simp only [number, Bool.false_eq_true, if_false]
    rw [← Int.ofNat_tmod, BitVec.ofInt_natCast, BitVec.toNat_ofNat, BitVec.toNat_umod]
    exact Nat.mod_eq_of_lt (lt_of_le_of_lt (Nat.mod_le _ _) a.isLt)

theorem ofNat_word (hle : w ≤ 64) (n : Int) :
    BitVec.ofNat w (n % twoPow 64).toNat = BitVec.ofInt w n := by
  have hdvd : (2 : Int) ^ w ∣ 2 ^ 64 := pow_dvd_pow 2 hle
  have hpos := Int.emod_nonneg n (show ((twoPow 64 : Nat) : Int) ≠ 0 by decide)
  rw [← BitVec.ofInt_natCast, Int.toNat_of_nonneg hpos, ofInt_eq_iff]
  exact Int.emod_emod_of_dvd n hdvd

theorem ofInt_bitwise (hle : w ≤ 64) {f : Nat → Nat → Nat} {g : BitVec w → BitVec w → BitVec w}
    (h : ∀ m n, BitVec.ofNat w (f m n) = g (.ofNat w m) (.ofNat w n)) (a b : BitVec w) :
    BitVec.ofInt w (Literal.bitwise f (number signed a) (number signed b)) = g a b := by
  rw [Literal.bitwise, BitVec.ofInt_natCast, h, ofNat_word hle, ofNat_word hle, ofInt_number_eq,
    ofInt_number_eq]

/-- The arithmetic operators other than the product. -/
theorem vectors_evalNumber {op : BinaryOp} {a b : BitVec w} {n : Int} (hle : w ≤ 64)
    (hop : op ≠ .mul) (h : Literal.evalNumber op (number signed a) (number signed b) = some n) :
    vectors op.hardware signed a b = some (.vector signed w (.ofInt w n)) := by
  have ha := @ofInt_number_eq w signed a
  have hb := @ofInt_number_eq w signed b
  cases op with
  | add =>
    cases h
    rw [BitVec.ofInt_add, ha, hb]
    rfl
  | sub =>
    cases h
    rw [Int.sub_eq_add_neg, BitVec.ofInt_add, BitVec.ofInt_neg, ha, hb, ← BitVec.sub_eq_add_neg]
    rfl
  | mul => exact absurd rfl hop
  | div =>
    obtain ⟨hy, hn⟩ := Option.ite_none_left_eq_some.1 h
    cases hn
    rw [ofInt_tdiv, BinaryOp.hardware, vectors, if_neg (ne_zero_of_number hy)]
  | rem =>
    obtain ⟨hy, hn⟩ := Option.ite_none_left_eq_some.1 h
    cases hn
    rw [ofInt_tmod, BinaryOp.hardware, vectors, if_neg (ne_zero_of_number hy)]
  | bitAnd =>
    cases h
    have hbits : BitVec.ofInt w (Literal.bitwise Nat.land (number signed a) (number signed b)) =
        a &&& b := ofInt_bitwise hle (fun _ _ ↦ BitVec.ofNat_and) a b
    rw [hbits]
    rfl
  | bitOr =>
    cases h
    have hbits : BitVec.ofInt w (Literal.bitwise Nat.lor (number signed a) (number signed b)) =
        a ||| b := ofInt_bitwise hle (fun _ _ ↦ BitVec.ofNat_or) a b
    rw [hbits]
    rfl
  | bitXor =>
    cases h
    have hbits : BitVec.ofInt w (Literal.bitwise Nat.xor (number signed a) (number signed b)) =
        a ^^^ b := ofInt_bitwise hle (fun _ _ ↦ BitVec.ofNat_xor) a b
    rw [hbits]
    rfl
  | _ => cases h

theorem vectors_compare {op : BinaryOp} {a b : BitVec w} {r : Bool}
    (h : Literal.compare op (number signed a) (number signed b) = some r) :
    vectors op.hardware signed a b = some (.bool r) := by
  cases op <;> cases h <;> rfl

theorem shiftLeft_number (a : BitVec w) (n : Nat) :
    a <<< n = BitVec.ofInt w (number signed a * twoPow n) := by
  have hpow : BitVec.twoPow w n = BitVec.ofNat w (twoPow n) := by
    apply BitVec.eq_of_toNat_eq
    rw [BitVec.toNat_twoPow, BitVec.toNat_ofNat, twoPow_eq]
  rw [BitVec.ofInt_mul, ofInt_number_eq, BitVec.shiftLeft_eq_mul_twoPow, BitVec.ofInt_natCast, hpow]

theorem shiftRight_number (a : BitVec w) (n : Nat) :
    (if signed then a.sshiftRight n else a >>> n) =
      BitVec.ofInt w (number signed a / twoPow n) := by
  cases signed with
  | true =>
    rw [if_pos rfl, BitVec.sshiftRight_eq, Int.shiftRight_eq_div_pow]
    rfl
  | false =>
    apply BitVec.eq_of_toNat_eq
    simp only [number, Bool.false_eq_true, if_false]
    rw [BitVec.toNat_ushiftRight, Nat.shiftRight_eq_div_pow, twoPow_eq, ← Int.natCast_ediv,
      BitVec.ofInt_natCast, BitVec.toNat_ofNat]
    exact (Nat.mod_eq_of_lt (lt_of_le_of_lt (Nat.div_le_self _ _) a.isLt)).symm

end Vhdl

end Fabric
