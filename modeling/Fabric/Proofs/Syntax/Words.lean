import Fabric.Lowering.Operand
import Fabric.Proofs.Syntax.Arithmetic

namespace Fabric

namespace Words

open Literal (bits)

def IsWord (n : Int) : Prop :=
  -2 ^ 127 ≤ n ∧ n < 2 ^ 127

instance (n : Int) : Decidable (IsWord n) :=
  inferInstanceAs (Decidable (_ ∧ _))

/-- A result in signed words of 128 bits. The operation fails if it is none. -/
def checked (n : Int) : Except Fault Int :=
  if IsWord n then .ok n else .error .overflow

/-- A difference in unsigned words. -/
def minus (m n : Nat) : Except Fault Nat :=
  if n ≤ m then .ok (m - n) else .error .underflow

def shiftLeft (n : Int) (amount : Nat) : Except Fault Int :=
  if amount < 128 then .ok ((n * 2 ^ amount).bmod (2 ^ 128)) else .error .shift

def shiftRight (n : Int) (amount : Nat) : Except Fault Int :=
  if amount < 128 then .ok (n / 2 ^ amount) else .error .shift

def mask (n : Nat) : Except Fault Int := do
  checked ((← shiftLeft 1 n) - 1)

def wrap (value : Int) (width : UInt16) (signed : Bool) : Except Fault Int64 :=
  if bits width = 0 then .ok 0
  else do
    let truncated := value.land (← mask (bits width))
    if signed then
      let sign ← shiftRight truncated (← minus (bits width) 1)
      if sign.land 1 = 1 then
        return .ofInt (← checked (truncated - (← shiftLeft 1 (bits width))))
      else return .ofInt truncated
    else return .ofInt truncated

def number (value : Int64) (width : UInt16) (signed : Bool) : Except Fault Int :=
  if signed then .ok value.toInt
  else
    let raw : Int := value.toUInt64.toNat
    if bits width = 64 then .ok raw
    else do return raw.land (← mask (bits width))

def ofNumber (value : Int) (width : UInt16) (signed : Bool) : Except Fault Literal := do
  return .int (← wrap value width signed) width signed

def evalUnary : UnaryOp → Literal → Except Fault (Option Literal)
  | .logicNot, .bool b => .ok (some (.bool !b))
  | .neg, .int value width signed => do
    let x ← checked (-(← number value width signed))
    return some (← ofNumber x width signed)
  | .not, .int value width signed => do
    let x := (← number value width signed).lnot
    return some (← ofNumber x width signed)
  | .not, .bool b => .ok (some (.bool !b))
  | _, _ => .ok none

def amount (y : Int) (width : UInt16) : Except Fault Nat := do
  let low ← minus (max width.toNat 1) 1
  return (y.land low % 2 ^ 32).toNat

def quotient (x y : Int) : Except Fault Int :=
  checked (x.tdiv y)

def remainder (x y : Int) : Except Fault Int := do
  let _ ← quotient x y
  checked (x.tmod y)

def arithmetic : BinaryOp → Int → Int → Except Fault (Option Int)
  | .add, x, y => do return some (← checked (x + y))
  | .sub, x, y => do return some (← checked (x - y))
  | .mul, x, y => .ok (if IsWord (x * y) then some (x * y) else none)
  | .div, x, y => if y = 0 then .ok none else do return some (← quotient x y)
  | .rem, x, y => if y = 0 then .ok none else do return some (← remainder x y)
  | .bitAnd, x, y => .ok (some (x.land y))
  | .bitOr, x, y => .ok (some (x.lor y))
  | .bitXor, x, y => .ok (some (x.xor y))
  | _, _, _ => .ok none

def shift (op : BinaryOp) (x : Int) (amount : Nat) : Except Fault Int :=
  if op = .shl then shiftLeft x amount else shiftRight x amount

def evalBinary (op : BinaryOp) : Literal → Literal → Except Fault (Option Literal)
  | .bool a, .bool b => .ok ((Literal.evalBool op a b).map .bool)
  | .int a width signed, .int b width' signed' => do
    let x ← number a width signed
    let y ← number b width' signed'
    if op.isShift then
      let n ← shift op x (← amount y width)
      return some (← ofNumber n width signed)
    else if width ≠ width' ∨ signed ≠ signed' then return none
    else
      match Literal.compare op x y with
      | some b => return some (.bool b)
      | none =>
        match ← arithmetic op x y with
        | some n => return some (← ofNumber n width signed)
        | none => return none
  | _, _ => .ok none

def evalCast : TypeRef → Literal → Except Fault (Option Literal)
  | .int width signed, .int value width' signed' => do
    return some (← ofNumber (← number value width' signed') width signed)
  | .bool, .bool b => .ok (some (.bool b))
  | _, _ => .ok none

def fits (value : Int64) : HwType → Except Fault Bool
  | .signed width =>
    if 64 ≤ width.toNat then .ok true
    else do
      let bound ← shiftLeft 1 (← minus width.toNat 1)
      let low ← checked (-bound)
      return decide (low ≤ value.toInt ∧ value.toInt < bound)
  | .unsigned width =>
    if value < 0 then .ok false
    else if 64 ≤ width.toNat then .ok true
    else do
      let bound ← shiftLeft 1 width.toNat
      return decide (value.toInt < bound)
  | _ => .ok false

/-- A shift by an amount that a word of 128 bits does not have. -/
def ShiftsOut (op : BinaryOp) : Literal → Literal → Prop
  | .int _ width _, .int b width' signed' =>
    op.isShift ∧ 128 ≤ (Literal.number b width' signed').land (max width.toNat 1 - 1 : Nat)
  | _, _ => False

theorem ok_bind {α β : Type} (a : α) (f : α → Except Fault β) : (Except.ok a >>= f) = f a :=
  rfl

theorem checked_of_isWord {n : Int} (h : IsWord n) : checked n = .ok n :=
  if_pos h

theorem pow_lt {k : Nat} (h : k ≤ 64) : (2 : Int) ^ k < 2 ^ 126 :=
  pow_lt_pow_right₀ (by decide) (by omega)

theorem shiftLeft_one {k : Nat} (h : k ≤ 64) : shiftLeft 1 k = .ok (2 ^ k) := by
  have hlt := pow_lt h
  have hpos : (0 : Int) < 2 ^ k := by positivity
  rw [shiftLeft, if_pos (by omega), one_mul, Int.bmod_eq_of_le (by omega) (by omega)]

theorem mask_eq {k : Nat} (h : k ≤ 64) : mask k = .ok (2 ^ k - 1) := by
  have hlt := pow_lt h
  have hpos : (0 : Int) < 2 ^ k := by positivity
  have hword : IsWord (2 ^ k - 1) := ⟨by omega, by omega⟩
  rw [mask, shiftLeft_one h]
  exact checked_of_isWord hword

theorem land_natCast (n : Int) {m w : Nat} (h : m < 2 ^ w) :
    n.land m = ((n % 2 ^ w).toNat &&& m : Nat) := by
  obtain ⟨j, hj⟩ : ∃ j : Nat, n.land m = j := by
    cases n with
    | ofNat a => exact ⟨_, rfl⟩
    | negSucc a => exact ⟨_, rfl⟩
  have hcast (i : Nat) : j.testBit i = (n.testBit i && m.testBit i) := by
    have hbit := Int.testBit_land n m i
    rw [hj] at hbit
    exact hbit
  rw [hj, Nat.cast_inj]
  refine Nat.eq_of_testBit_eq fun i ↦ ?_
  rw [hcast, Nat.testBit_and, Literal.testBit_residue]
  by_cases hi : i < w
  · simp [hi]
  · have hfalse : m.testBit i = false :=
      Nat.testBit_lt_two_pow (h.trans_le (Nat.pow_le_pow_right (by decide) (by omega)))
    simp [hfalse]

theorem land_mask (n : Int) (k : Nat) : n.land (2 ^ k - 1) = n % 2 ^ k := by
  have hpos : 0 < 2 ^ k := Nat.two_pow_pos k
  have hmask : ((2 : Int) ^ k - 1) = (2 ^ k - 1 : Nat) := by
    rw [Nat.cast_sub hpos]
    norm_num
  have hnonneg := Int.emod_nonneg n (show (2 : Int) ^ k ≠ 0 by positivity)
  have hlt := Int.emod_lt_of_pos n (show (0 : Int) < 2 ^ k by positivity)
  have hres : (n % 2 ^ k).toNat < 2 ^ k := by
    zify
    rwa [Int.toNat_of_nonneg hnonneg]
  rw [hmask, land_natCast n (show 2 ^ k - 1 < 2 ^ k by omega), Nat.and_two_pow_sub_one_eq_mod,
    Nat.mod_eq_of_lt hres, Int.toNat_of_nonneg hnonneg]

variable {width : UInt16} {signed : Bool} {value : Int64}

theorem bits_le (width : UInt16) : bits width ≤ 64 :=
  Nat.min_le_right _ _

/-- The highest bit of a residue tells whether it is in the upper half. -/
theorem sign_iff {r : Int} {k : Nat} (h0 : 0 ≤ r) (hlt : r < 2 ^ (k + 1)) :
    (r / 2 ^ k).land 1 = 1 ↔ 2 ^ k ≤ r := by
  have hpos : (0 : Int) < 2 ^ k := by positivity
  have hbit := land_mask (r / 2 ^ k) 1
  have hquotient : r / 2 ^ k < 2 := by
    rw [Int.ediv_lt_iff_lt_mul hpos, ← pow_succ']
    exact hlt
  have hnonneg : 0 ≤ r / 2 ^ k := Int.ediv_nonneg h0 hpos.le
  rw [show (2 : Int) ^ 1 - 1 = 1 from rfl] at hbit
  have hhalf : 2 ^ k ≤ r ↔ 1 ≤ r / 2 ^ k := by rw [Int.le_ediv_iff_mul_le hpos, one_mul]
  rw [hbit, hhalf]
  omega

theorem wrap_eq (n : Int) (width : UInt16) (signed : Bool) :
    wrap n width signed = .ok (Literal.wrap n width signed) := by
  rw [wrap, Literal.wrap]
  split
  · rfl
  next hbits =>
    obtain ⟨k, hk⟩ := Nat.exists_eq_succ_of_ne_zero hbits
    have hle := bits_le width
    have h0 := Int.emod_nonneg n (show (2 : Int) ^ (k + 1) ≠ 0 by positivity)
    have hlt := Int.emod_lt_of_pos n (show (0 : Int) < 2 ^ (k + 1) by positivity)
    have hpow := pow_lt (hk ▸ hle)
    rw [hk] at hle ⊢
    simp only [mask_eq hle, ok_bind, land_mask, twoPow_eq, Nat.succ_eq_add_one, Nat.add_sub_cancel,
      Nat.cast_pow, Nat.cast_ofNat]
    generalize n % 2 ^ (k + 1) = r at h0 hlt ⊢
    cases signed with
    | false => rfl
    | true =>
      have hminus : minus (k + 1) 1 = .ok k := if_pos (by omega)
      have hshift : shiftRight r k = .ok (r / 2 ^ k) := if_pos (by omega)
      have hword : IsWord (r - 2 ^ (k + 1)) := ⟨by omega, by omega⟩
      simp only [if_true, hminus, hshift, ok_bind, sign_iff h0 hlt, Bool.true_and, decide_eq_true_eq,
        shiftLeft_one hle, checked_of_isWord hword]
      split <;> rfl

theorem ofNumber_eq (n : Int) (width : UInt16) (signed : Bool) :
    ofNumber n width signed = .ok (Literal.ofNumber n width signed) := by
  rw [ofNumber, wrap_eq]
  rfl

theorem toNat_toUInt64 (value : Int64) : (value.toUInt64.toNat : Int) = value.toInt % 2 ^ 64 := by
  have hword : value.toInt = (value.toUInt64.toNat : Int).bmod (2 ^ 64) :=
    BitVec.toInt_eq_toNat_bmod _
  have hlt : (value.toUInt64.toNat : Int) < 2 ^ 64 := by exact_mod_cast value.toUInt64.toNat_lt
  have hmod := Int.bmod_emod (x := value.toUInt64.toNat) (m := 2 ^ 64)
  rw [← hword] at hmod
  exact (hmod.trans (Int.emod_eq_of_lt (by omega) hlt)).symm

theorem number_eq (value : Int64) (width : UInt16) (signed : Bool) :
    number value width signed = .ok (Literal.number value width signed) := by
  cases signed with
  | true => rfl
  | false =>
    have hdvd : ((2 ^ bits width : Int)) ∣ 2 ^ 64 := pow_dvd_pow 2 (bits_le width)
    simp only [number, Literal.number, Bool.false_eq_true, if_false, toNat_toUInt64, twoPow_eq,
      mask_eq (bits_le width), ok_bind, land_mask, Int.emod_emod_of_dvd _ hdvd, Nat.cast_pow,
      Nat.cast_ofNat]
    split
    next h => rw [h]
    · rfl

theorem number_bounds (value : Int64) (width : UInt16) (signed : Bool) :
    -2 ^ 63 ≤ Literal.number value width signed ∧ Literal.number value width signed < 2 ^ 64 := by
  have hlow : -(2 : Int) ^ 63 ≤ value.toInt := value.le_toInt
  have hhigh : value.toInt < (2 : Int) ^ 63 := value.toInt_lt
  cases signed with
  | true => exact ⟨hlow, hhigh.trans (by decide)⟩
  | false =>
    have hpos : (0 : Int) < twoPow (bits width) := by exact_mod_cast twoPow_pos _
    have hle : ((twoPow (bits width) : Nat) : Int) ≤ 2 ^ 64 := by
      exact_mod_cast Nat.pow_le_pow_right (by decide) (bits_le width)
    have hnonneg := Int.emod_nonneg value.toInt hpos.ne'
    have hlt := Int.emod_lt_of_pos value.toInt hpos
    simp only [Literal.number, Bool.false_eq_true, if_false]
    exact ⟨by omega, by omega⟩

theorem lnot_eq (n : Int) : n.lnot = -n - 1 := by
  cases n with
  | ofNat m =>
    rw [Int.lnot, Int.negSucc_eq, Int.ofNat_eq_natCast]
    ring
  | negSucc m =>
    rw [Int.lnot, Int.negSucc_eq]
    ring

theorem evalUnary_eq (op : UnaryOp) (a : Literal) :
    evalUnary op a = .ok (Literal.evalUnary op a) := by
  cases a with
  | bool b => cases op <;> rfl
  | int value width signed =>
    obtain ⟨hlow, hhigh⟩ := number_bounds value width signed
    cases op with
    | neg =>
      have hword : IsWord (-Literal.number value width signed) := ⟨by omega, by omega⟩
      simp only [evalUnary, number_eq, ok_bind, checked_of_isWord hword, ofNumber_eq]
      rfl
    | not =>
      simp only [evalUnary, number_eq, ok_bind, ofNumber_eq, lnot_eq]
      rfl
    | logicNot => rfl

theorem evalCast_eq (type : TypeRef) (a : Literal) :
    evalCast type a = .ok (Literal.evalCast type a) := by
  cases a with
  | bool b => cases type <;> rfl
  | int value width signed =>
    cases type with
    | int width' signed' =>
      simp only [evalCast, number_eq, ok_bind, ofNumber_eq]
      rfl
    | _ => rfl

theorem land_eq_shiftAmount (y : Int) (width : UInt16) :
    y.land (max width.toNat 1 - 1 : Nat) = Literal.shiftAmount y width := by
  have hwidth := width.toNat_lt
  exact land_natCast y (show max width.toNat 1 - 1 < 2 ^ 128 by omega)

theorem amount_eq (y : Int) (width : UInt16) :
    amount y width = .ok (Literal.shiftAmount y width) := by
  have hwidth := width.toNat_lt
  have hle : Literal.shiftAmount y width ≤ max width.toNat 1 - 1 := Nat.and_le_right
  have hminus : minus (max width.toNat 1) 1 = .ok (max width.toNat 1 - 1) := if_pos (by omega)
  rw [amount, hminus, ok_bind, land_eq_shiftAmount]
  congr 1
  omega

theorem wrap_congr {m n : Int} (h : m % 2 ^ 64 = n % 2 ^ 64) (width : UInt16) (signed : Bool) :
    Literal.wrap m width signed = Literal.wrap n width signed := by
  have hdvd : ((2 ^ bits width : Int)) ∣ 2 ^ 64 := pow_dvd_pow 2 (bits_le width)
  have hmod : m % 2 ^ bits width = n % 2 ^ bits width := by
    rw [← Int.emod_emod_of_dvd m hdvd, h, Int.emod_emod_of_dvd n hdvd]
  simp only [Literal.wrap, twoPow_eq, Nat.cast_pow, Nat.cast_ofNat, hmod]

/-- The bits that a shift to the left loses are beyond those that are kept. -/
theorem shiftLeft_emod {k : Nat} (h : k < 128) (n : Int) :
    ∃ m, shiftLeft n k = .ok m ∧ m % 2 ^ 64 = n * 2 ^ k % 2 ^ 64 := by
  refine ⟨_, if_pos h, ?_⟩
  have hdvd : (2 ^ 64 : Int) ∣ (2 ^ 128 : Nat) := ⟨2 ^ 64, by norm_num⟩
  rw [← Int.emod_emod_of_dvd _ hdvd, Int.bmod_emod, Int.emod_emod_of_dvd _ hdvd]

theorem quotient_eq {x : Int} (hx : -2 ^ 63 ≤ x ∧ x < 2 ^ 64) (y : Int) :
    quotient x y = .ok (x.tdiv y) := by
  have hle : (x.tdiv y).natAbs ≤ x.natAbs := by
    rw [Int.natAbs_tdiv]
    exact Nat.div_le_self _ _
  exact checked_of_isWord ⟨by omega, by omega⟩

theorem remainder_eq {x : Int} (hx : -2 ^ 63 ≤ x ∧ x < 2 ^ 64) (y : Int) :
    remainder x y = .ok (x.tmod y) := by
  have hle : (x.tmod y).natAbs ≤ x.natAbs := by
    rw [Int.natAbs_tmod]
    exact Nat.mod_le _ _
  rw [remainder, quotient_eq hx, ok_bind]
  exact checked_of_isWord ⟨by omega, by omega⟩

theorem ofNumber_congr {m n : Int} (h : m % 2 ^ 64 = n % 2 ^ 64) (width : UInt16) (signed : Bool) :
    Literal.ofNumber m width signed = Literal.ofNumber n width signed := by
  rw [Literal.ofNumber, wrap_congr h, Literal.ofNumber]

theorem arithmetic_eq (op : BinaryOp) {x y : Int} (hx : -2 ^ 63 ≤ x ∧ x < 2 ^ 64)
    (hy : -2 ^ 63 ≤ y ∧ y < 2 ^ 64) (width : UInt16) (signed : Bool) :
    ∃ r, arithmetic op x y = .ok r ∧ r.map (Literal.ofNumber · width signed) =
      (Literal.evalNumber op x y).map (Literal.ofNumber · width signed) := by
  have hexact {r : Option Int} (h : arithmetic op x y = .ok r) (hr : r = Literal.evalNumber op x y) :
      ∃ r, arithmetic op x y = .ok r ∧ r.map (Literal.ofNumber · width signed) =
        (Literal.evalNumber op x y).map (Literal.ofNumber · width signed) :=
    ⟨r, h, by rw [hr]⟩
  cases op with
  | add =>
    have hword : IsWord (x + y) := ⟨by omega, by omega⟩
    exact hexact (by rw [arithmetic, checked_of_isWord hword]; rfl) rfl
  | sub =>
    have hword : IsWord (x - y) := ⟨by omega, by omega⟩
    exact hexact (by rw [arithmetic, checked_of_isWord hword]; rfl) rfl
  | mul => exact hexact rfl rfl
  | div =>
    refine hexact (r := if y = 0 then none else some (x.tdiv y)) ?_ rfl
    rw [arithmetic, quotient_eq hx]
    split <;> rfl
  | rem =>
    refine hexact (r := if y = 0 then none else some (x.tmod y)) ?_ rfl
    rw [arithmetic, remainder_eq hx]
    split <;> rfl
  | bitAnd =>
    refine ⟨_, rfl, congrArg some (ofNumber_congr (Int.ModEq.symm ?_) width signed)⟩
    exact Literal.bitwise_modEq le_rfl (· && ·) Nat.testBit_and Int.testBit_land x y
  | bitOr =>
    refine ⟨_, rfl, congrArg some (ofNumber_congr (Int.ModEq.symm ?_) width signed)⟩
    exact Literal.bitwise_modEq le_rfl (· || ·) Nat.testBit_or Int.testBit_lor x y
  | bitXor =>
    refine ⟨_, rfl, congrArg some (ofNumber_congr (Int.ModEq.symm ?_) width signed)⟩
    exact Literal.bitwise_modEq le_rfl (· ^^ ·) Nat.testBit_xor Int.testBit_lxor x y
  | _ => exact hexact rfl rfl

theorem shift_eq {op : BinaryOp} {k : Nat} (hk : k < 128) {x n : Int}
    (hn : Literal.evalShift op x k = some n) :
    ∃ m, shift op x k = .ok m ∧ m % 2 ^ 64 = n % 2 ^ 64 := by
  cases op with
  | shl =>
    cases hn
    obtain ⟨m, hm, hmod⟩ := shiftLeft_emod hk x
    refine ⟨m, hm, ?_⟩
    rw [hmod, twoPow_eq]
    push_cast
    rfl
  | shr =>
    cases hn
    refine ⟨_, if_pos hk, ?_⟩
    rw [twoPow_eq]
    push_cast
    rfl
  | _ => cases hn

theorem shift_error {k : Nat} (hk : 128 ≤ k) (op : BinaryOp) (x : Int) :
    shift op x k = .error .shift := by
  unfold shift
  split <;> exact if_neg (by omega)

theorem evalBinary_of_isShift {op : BinaryOp} (hop : op.isShift) (value value' : Int64)
    (width width' : UInt16) (signed signed' : Bool) :
    evalBinary op (.int value width signed) (.int value' width' signed') =
      Literal.evalBinary op (.int value width signed) (.int value' width' signed') := by
  obtain ⟨n, hn⟩ := Literal.exists_evalShift hop (Literal.number value width signed)
    (Literal.shiftAmount (Literal.number value' width' signed') width)
  by_cases hlt : Literal.shiftAmount (Literal.number value' width' signed') width < 128
  · obtain ⟨m, hm, hmod⟩ := shift_eq hlt hn
    rw [Literal.evalBinary_of_evalShift hn hlt, ← ofNumber_congr hmod]
    simp only [evalBinary, number_eq, ok_bind, hop, if_true, amount_eq, hm, ofNumber_eq]
    rfl
  · simp only [evalBinary, number_eq, ok_bind, hop, if_true, amount_eq,
      shift_error (Nat.le_of_not_lt hlt), Literal.evalBinary, hn, hlt, if_false]
    rfl

theorem evalBinary_of_not_isShift {op : BinaryOp} (hop : ¬op.isShift) (value value' : Int64)
    (width width' : UInt16) (signed signed' : Bool) :
    evalBinary op (.int value width signed) (.int value' width' signed') =
      Literal.evalBinary op (.int value width signed) (.int value' width' signed') := by
  obtain ⟨r, hr, hmap⟩ := arithmetic_eq op (number_bounds value width signed)
    (number_bounds value' width' signed') width signed
  simp only [evalBinary, number_eq, ok_bind, hop, Bool.false_eq_true, if_false, Literal.evalBinary,
    Literal.evalShift_of_not_isShift hop, hr, ← hmap]
  split
  · rfl
  · generalize Literal.compare op _ _ = comparison
    cases comparison with
    | some b => rfl
    | none => cases r <;> simp only [ofNumber_eq] <;> rfl

/-- An operator on two literals gives in words what it gives on numbers, and fails where it does. -/
theorem evalBinary_eq (op : BinaryOp) (a b : Literal) :
    evalBinary op a b = Literal.evalBinary op a b := by
  cases a with
  | bool _ => cases b <;> rfl
  | int value width signed =>
    cases b with
    | bool _ => rfl
    | int value' width' signed' =>
      by_cases hop : op.isShift
      · exact evalBinary_of_isShift hop value value' width width' signed signed'
      · exact evalBinary_of_not_isShift hop value value' width width' signed signed'

theorem shiftsOut_iff_le {op : BinaryOp} {value value' : Int64} {width width' : UInt16}
    {signed signed' : Bool} :
    ShiftsOut op (.int value width signed) (.int value' width' signed') ↔
      op.isShift ∧ 128 ≤ Literal.shiftAmount (Literal.number value' width' signed') width := by
  rw [ShiftsOut, land_eq_shiftAmount]
  norm_cast

theorem evalBinary_eq_error_iff (op : BinaryOp) (a b : Literal) (fault : Fault) :
    Literal.evalBinary op a b = .error fault ↔ fault = .shift ∧ ShiftsOut op a b := by
  cases a with
  | bool _ => cases b <;> exact iff_of_false (by simp [Literal.evalBinary]) (fun h ↦ h.2)
  | int value width signed =>
    cases b with
    | bool _ => exact iff_of_false (by simp [Literal.evalBinary]) (fun h ↦ h.2)
    | int value' width' signed' =>
      rw [shiftsOut_iff_le]
      by_cases hop : op.isShift
      · obtain ⟨n, hn⟩ := Literal.exists_evalShift hop (Literal.number value width signed)
          (Literal.shiftAmount (Literal.number value' width' signed') width)
        simp only [Literal.evalBinary, hn, hop, true_and]
        split
        next hlt => exact iff_of_false (by simp) (by omega)
        next hle => simp [Nat.le_of_not_lt hle, eq_comm]
      · simp only [Literal.evalBinary, Literal.evalShift_of_not_isShift hop, hop, Bool.false_eq_true,
          false_and, and_false, iff_false]
        split
        · simp
        · split <;> simp

theorem fits_signed (value : Int64) (hzero : width ≠ 0) :
    fits value (.signed width) = .ok ((HwType.signed width).represents value) := by
  by_cases hwide : 64 ≤ width
  · have hwide' : 64 ≤ width.toNat := hwide
    rw [fits, if_pos hwide', HwType.represents, if_pos hwide]
  · have hpos : width.toNat ≠ 0 := fun h ↦ hzero (UInt16.toNat_inj.1 h)
    have hwidth : ¬64 ≤ width.toNat := hwide
    have hminus : minus width.toNat 1 = .ok (width.toNat - 1) := if_pos (by omega)
    have hle : width.toNat - 1 ≤ 64 := by omega
    have hlt := pow_lt hle
    have hbound : (0 : Int) < 2 ^ (width.toNat - 1) := by positivity
    have hword : IsWord (-2 ^ (width.toNat - 1)) := ⟨by omega, by omega⟩
    simp only [fits, hwidth, if_false, hminus, ok_bind, shiftLeft_one hle, checked_of_isWord hword,
      HwType.represents, hwide, hzero, twoPow_eq, Nat.cast_pow, Nat.cast_ofNat]
    rfl

theorem fits_unsigned (value : Int64) (width : UInt16) :
    fits value (.unsigned width) = .ok ((HwType.unsigned width).represents value) := by
  by_cases hwide : 64 ≤ width
  · have hwide' : 64 ≤ width.toNat := hwide
    simp only [fits, HwType.represents, hwide, hwide', if_true, true_or, decide_true]
    split <;> rfl
  · have hwidth : ¬64 ≤ width.toNat := hwide
    simp only [fits, HwType.represents, hwide, hwidth, if_false, false_or,
      shiftLeft_one (Nat.le_of_not_le hwidth), ok_bind, twoPow_eq, Nat.cast_pow, Nat.cast_ofNat]
    split <;> rfl

/-- Whether a value fits a type is found in words as on numbers, and fails where that does. -/
theorem fits_eq (value : Int64) (type : HwType) : fits value type = type.fits value := by
  by_cases hzero : type = .signed 0
  · subst hzero
    rfl
  · rw [HwType.fits, if_neg hzero]
    cases type with
    | signed width => exact fits_signed value fun h ↦ hzero (h ▸ rfl)
    | unsigned width => exact fits_unsigned value width
    | _ => rfl

theorem fits_eq_error_iff (value : Int64) (type : HwType) (fault : Fault) :
    type.fits value = .error fault ↔ fault = .underflow ∧ type = .signed 0 := by
  rw [HwType.fits]
  split
  next h => simp [h, eq_comm]
  next h => simp [h]

theorem shiftsOut_iff (width : UInt16) :
    (∃ op value signed b, ShiftsOut op (.int value width signed) b) ↔ 128 < width.toNat := by
  constructor
  · rintro ⟨op, value, signed, b, h⟩
    cases b with
    | bool _ => exact h.elim
    | int value' width' signed' =>
      have hout := (shiftsOut_iff_le.1 h).2
      have hle : Literal.shiftAmount (Literal.number value' width' signed') width ≤
          max width.toNat 1 - 1 := Nat.and_le_right
      omega
  · intro h
    have hwidth := width.toNat_lt
    obtain ⟨m, hm⟩ : ∃ m, m = max width.toNat 1 - 1 := ⟨_, rfl⟩
    have hle : 128 ≤ m := by omega
    have hlt : m < 2 ^ 16 := by omega
    -- The mask is itself an amount that it keeps.
    have hnumber : Literal.number (.ofInt m) 64 true = m :=
      Int64.toInt_ofInt_of_le (by omega) (by omega)
    refine ⟨.shl, 0, false, .int (.ofInt m) 64 true, rfl, ?_⟩
    rw [hnumber, ← hm]
    change (128 : Int) ≤ (m &&& m : Nat)
    rw [Nat.and_self]
    exact_mod_cast hle

/-- Arithmetic on literals gives and fails in words as it does on numbers, whatever the widths. It fails
only in shifts by amounts that a word does not have, and there are such amounts in the types of more than
128 bits only. To ask whether a value fits a type fails for a signed type without bits only. -/
theorem arithmetic_words (value : Int64) (n : Int) (width : UInt16) (signed : Bool) (a b : Literal)
    (unary : UnaryOp) (op : BinaryOp) (type : TypeRef) (hardware : HwType) (fault : Fault) :
    number value width signed = .ok (Literal.number value width signed) ∧
      wrap n width signed = .ok (Literal.wrap n width signed) ∧
      evalUnary unary a = .ok (Literal.evalUnary unary a) ∧
      evalCast type a = .ok (Literal.evalCast type a) ∧
      evalBinary op a b = Literal.evalBinary op a b ∧
      (Literal.evalBinary op a b = .error fault ↔ fault = .shift ∧ ShiftsOut op a b) ∧
      ((∃ op value signed b, ShiftsOut op (.int value width signed) b) ↔ 128 < width.toNat) ∧
      fits value hardware = hardware.fits value ∧
      (hardware.fits value = .error fault ↔ fault = .underflow ∧ hardware = .signed 0) :=
  ⟨number_eq value width signed, wrap_eq n width signed, evalUnary_eq unary a, evalCast_eq type a,
    evalBinary_eq op a b, evalBinary_eq_error_iff op a b fault, shiftsOut_iff width,
    fits_eq value hardware, fits_eq_error_iff value hardware fault⟩

/-- One shifted to the left by 129 in 256 bits, and the bounds of a signed type without bits. -/
theorem words_fail :
    Literal.evalBinary .shl (.int 1 256 false) (.int 129 32 true) = .error .shift ∧
      (HwType.signed 0).fits 0 = .error .underflow :=
  ⟨rfl, rfl⟩

end Words

end Fabric
