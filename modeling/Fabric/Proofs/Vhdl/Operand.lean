import Fabric.Proofs.Vhdl.Agreement

namespace Fabric

def Literal.IsNormal (value : Int64) (width : UInt16) (signed : Bool) : Prop :=
  wrap (number value width signed) width signed = value

namespace HwType

def Holds (n : Int) : HwType → Prop
  | .signed width =>
    0 < width.toNat ∧ -2 ^ (width.toNat - 1) ≤ n ∧ n < 2 ^ (width.toNat - 1)
  | .unsigned width => 0 ≤ n ∧ n < 2 ^ width.toNat
  | .boolean | .array _ _ => False

def IsSigned (t : HwType) : Prop :=
  ∃ width, t = .signed width

variable {a b t : HwType} {n : Int} {value : Int64}

theorem holds_word {width : UInt16} (h : 64 ≤ width.toNat) :
    (HwType.signed width).Holds value.toInt := by
  have hlow : -(2 : Int) ^ 63 ≤ value.toInt := value.le_toInt
  have hhigh : value.toInt < (2 : Int) ^ 63 := value.toInt_lt
  have hpow : (2 : Int) ^ 63 ≤ 2 ^ (width.toNat - 1) := pow_le_pow_right₀ (by decide) (by omega)
  exact ⟨by omega, by omega, by omega⟩

theorem represents_iff : t.represents value = true ↔ t.Holds value.toInt := by
  cases t with
  | signed width =>
    simp only [represents, UInt16.le_iff_toNat_le, ← UInt16.toNat_inj, twoPow_eq]
    split
    next h => simp [holds_word h]
    next h =>
      split
      next hzero => simp [Holds, show width.toNat = 0 from hzero]
      next hzero =>
        have hpos : 0 < width.toNat := Nat.pos_of_ne_zero hzero
        simp [Holds, hpos]
  | unsigned width =>
    simp only [represents, Int64.lt_iff_toInt_lt, UInt16.le_iff_toNat_le, twoPow_eq]
    split
    next h =>
      have hneg : value.toInt < 0 := h
      simp [Holds, Int.not_le.2 hneg]
    next h =>
      have hnonneg : 0 ≤ value.toInt := Int.not_lt.1 h
      have hhigh : value.toInt < (2 : Int) ^ 63 := value.toInt_lt
      have hwide (hle : 64 ≤ width.toNat) : value.toInt < 2 ^ width.toNat := by
        have hpow : (2 : Int) ^ 63 ≤ 2 ^ width.toNat := pow_le_pow_right₀ (by decide) (by omega)
        omega
      simpa [Holds, hnonneg] using hwide
  | boolean | array => simp [represents, Holds]

end HwType

theorem le_reportWidth (width : UInt16) : width ≤ reportWidth width := by
  unfold reportWidth
  cases h : reportWidths.find? fun w ↦ width ≤ w with
  | none => exact UInt16.le_refl _
  | some w => simpa using List.find?_some h

theorem toNat_max_width (v w : UInt16) : (max v w).toNat = max v.toNat w.toNat := by
  rw [show max v w = if v ≤ w then w else v from rfl]
  simp only [UInt16.le_iff_toNat_le]
  split <;> omega

namespace HwType

variable {a b t : HwType} {n : Int}

theorem promote_comm (a b : HwType) : a.promote b = b.promote a := by
  unfold promote
  by_cases h : a = b
  · rw [if_pos h, if_pos h.symm, h]
  · rw [if_neg h, if_neg (Ne.symm h)]
    cases a <;> cases b <;> try rfl
    all_goals
      rename_i v w
      have hmax : max v w = max w v := by
        rw [← UInt16.toNat_inj, toNat_max_width, toNat_max_width, Nat.max_comm]
      simp only [hmax]

/-- Different types of integers meet in the wider one, or in a signed type if only one of them is
signed. -/
theorem promote_cases (h : a.promote b = some t) (hne : a ≠ b) :
    (∃ v w, a = .signed v ∧ b = .signed w ∧ t = .signed (max v w)) ∨
      (∃ v w, a = .unsigned v ∧ b = .unsigned w ∧ t = .unsigned (max v w)) ∨
        ∃ s u width, (a = .signed s ∧ b = .unsigned u ∨ a = .unsigned u ∧ b = .signed s) ∧
          t = .signed width ∧ s.toNat ≤ width.toNat ∧ min (u.toNat + 1) 65535 ≤ width.toNat := by
  have hmixed (s u : UInt16) :
      let width := reportWidth (UInt16.ofNat (max s.toNat (min (u.toNat + 1) 65535)))
      s.toNat ≤ width.toNat ∧ min (u.toNat + 1) 65535 ≤ width.toNat := by
    have hs := s.toNat_lt
    have hle := UInt16.le_iff_toNat_le.1
      (le_reportWidth (UInt16.ofNat (max s.toNat (min (u.toNat + 1) 65535))))
    rw [UInt16.toNat_ofNat'] at hle
    omega
  unfold promote at h
  rw [if_neg hne] at h
  split at h
  next v w =>
    cases h
    exact .inl ⟨v, w, rfl, rfl, rfl⟩
  next v w =>
    cases h
    exact .inr (.inl ⟨v, w, rfl, rfl, rfl⟩)
  next s u =>
    cases h
    exact .inr (.inr ⟨s, u, _, .inl ⟨rfl, rfl⟩, rfl, hmixed s u⟩)
  next u s =>
    cases h
    exact .inr (.inr ⟨s, u, _, .inr ⟨rfl, rfl⟩, rfl, hmixed s u⟩)
  next => cases h

theorem holds_signed_of_le {v w : UInt16} (h : (signed v).Holds n) (hle : v.toNat ≤ w.toNat) :
    (signed w).Holds n := by
  obtain ⟨hpos, hlow, hhigh⟩ := h
  have hpow : (2 : Int) ^ (v.toNat - 1) ≤ 2 ^ (w.toNat - 1) :=
    pow_le_pow_right₀ (by decide) (by omega)
  exact ⟨by omega, by omega, by omega⟩

theorem holds_unsigned_of_le {v w : UInt16} (h : (unsigned v).Holds n) (hle : v.toNat ≤ w.toNat) :
    (unsigned w).Holds n :=
  ⟨h.1, h.2.trans_le (pow_le_pow_right₀ (by decide) hle)⟩

theorem holds_signed_of_lt {v w : UInt16} (h : (unsigned v).Holds n) (hlt : v.toNat < w.toNat) :
    (signed w).Holds n := by
  obtain ⟨hlow, hhigh⟩ := h
  have hpow : (2 : Int) ^ v.toNat ≤ 2 ^ (w.toNat - 1) :=
    pow_le_pow_right₀ (by decide) (by omega)
  exact ⟨by omega, by omega, by omega⟩

theorem exists_not_holds (width : UInt16) :
    ∃ n, (unsigned 65535).Holds n ∧ ¬(signed width).Holds n := by
  obtain ⟨k, hk⟩ : ∃ k, (65535 : UInt16).toNat = k + 1 := ⟨65534, rfl⟩
  have hwidth := width.toNat_lt
  have hle : width.toNat - 1 ≤ k := by
    have : (65535 : UInt16).toNat = 65535 := rfl
    omega
  have hpow : (2 : Int) ^ (width.toNat - 1) ≤ 2 ^ k := pow_le_pow_right₀ (by decide) hle
  have hpos : (0 : Int) < 2 ^ k := by positivity
  refine ⟨2 ^ k, ⟨hpos.le, ?_⟩, fun h ↦ ?_⟩
  · rw [hk, pow_succ]
    omega
  · exact absurd h.2.2 (Int.not_lt.2 hpow)

theorem holds_promote (h : a.promote b = some t) (hn : a.Holds n)
    (hwidest : ¬(a = .unsigned 65535 ∧ t.IsSigned)) : t.Holds n := by
  by_cases hne : a = b
  · unfold promote at h
    rw [if_pos hne] at h
    cases h
    exact hn
  rcases promote_cases h hne with ⟨v, w, rfl, rfl, rfl⟩ | ⟨v, w, rfl, rfl, rfl⟩ |
    ⟨s, u, width, ⟨rfl, rfl⟩ | ⟨rfl, rfl⟩, rfl, hs, hu⟩
  · exact holds_signed_of_le hn (by rw [toNat_max_width]; omega)
  · exact holds_unsigned_of_le hn (by rw [toNat_max_width]; omega)
  · exact holds_signed_of_le hn hs
  · have hlt := u.toNat_lt
    have hmax : u.toNat ≠ 65535 := fun heq ↦
      hwidest ⟨congrArg unsigned (UInt16.toNat_inj.1 heq), width, rfl⟩
    exact holds_signed_of_lt hn (by omega)

end HwType

namespace Literal

variable {value : Int64} {width : UInt16} {signed : Bool}

theorem wrap_unsigned (hlt : width.toNat < 64) (n : Int) :
    (wrap n width false).toInt = n % 2 ^ width.toNat := by
  have hpow : (2 : Int) ^ width.toNat ≤ 2 ^ 63 := pow_le_pow_right₀ (by decide) (by omega)
  have hnonneg := Int.emod_nonneg n (show (2 : Int) ^ width.toNat ≠ 0 by positivity)
  have hbound := Int.emod_lt_of_pos n (show (0 : Int) < 2 ^ width.toNat by positivity)
  simp only [wrap, bits_of_le hlt.le, twoPow_eq, Bool.false_and, Bool.false_eq_true, if_false]
  push_cast
  split
  next hzero => simp [hzero]
  next => rw [Int64.toInt_ofInt_of_le (by omega) (by omega)]

theorem IsNormal.le_of_neg (h : IsNormal value width false) (hneg : value.toInt < 0) :
    64 ≤ width.toNat := by
  by_contra hlt
  have hwrap := wrap_unsigned (Nat.lt_of_not_le hlt) (number value width false)
  rw [h] at hwrap
  have hnonneg := Int.emod_nonneg (number value width false)
    (show (2 : Int) ^ width.toNat ≠ 0 by positivity)
  omega

theorem IsNormal.eq_zero (h : IsNormal value width signed) (hzero : width.toNat = 0) :
    value = 0 := by
  rw [← h, wrap, bits_of_le (by omega), if_pos hzero]

theorem IsNormal.holds (h : IsNormal value width signed) (hpos : 0 < width.toNat)
    (hsign : signed = true ∨ 0 ≤ value.toInt) : (HwType.scalar width signed).Holds value.toInt := by
  have hhigh : value.toInt < (2 : Int) ^ 63 := value.toInt_lt
  cases signed with
  | true =>
    by_cases hle : width.toNat ≤ 64
    · have hbits := Vhdl.number_ofInt ⟨hpos, hle, h⟩
      change (BitVec.ofInt width.toNat value.toInt).toInt = value.toInt at hbits
      refine ⟨hpos, ?_, ?_⟩
      · rw [← hbits]
        exact BitVec.le_toInt _
      · rw [← hbits]
        exact BitVec.toInt_lt
    · exact HwType.holds_word (by omega)
  | false =>
    have hnonneg : 0 ≤ value.toInt := by simpa using hsign
    refine ⟨hnonneg, ?_⟩
    by_cases hlt : width.toNat < 64
    · have hwrap := wrap_unsigned hlt (number value width false)
      rw [h] at hwrap
      rw [hwrap]
      exact Int.emod_lt_of_pos _ (by positivity)
    · have hpow : (2 : Int) ^ 63 ≤ 2 ^ width.toNat := pow_le_pow_right₀ (by decide) (by omega)
      omega

end Literal

namespace Vhdl

open Datum

/-- An expression denotes a number, whatever the names in it stand for. -/
def Denotes (s : Scope) (e : HwExpr) (n : Int) : Prop :=
  ∀ names, ∃ signed width bits,
    (s.code e).denote names = some (.vector signed width bits) ∧ number signed bits = n

/-- An operand: a constant with its type, or a value of which only the type is known. -/
inductive Operand
  | constant (value : Int64) (width : UInt16) (signed : Bool)
  | computed (type : HwType)

variable {s : Scope} {value : Int64} {width : UInt16} {signed : Bool} {a b t : HwType} {n : Int}

namespace Operand

def type : Operand → HwType
  | .constant _ width signed => .scalar width signed
  | .computed type => type

def constant? : Operand → Option Int64
  | .constant value width signed => (HwExpr.int value (.scalar width signed)).intLiteral?
  | .computed _ => none

def IsNormal : Operand → Prop
  | .constant value width signed => Literal.IsNormal value width signed
  | .computed _ => True

/-- A conversion loses nothing: a constant denotes the same number before and after it, and all
numbers of another operand are numbers of the new type. -/
def Kept (s : Scope) (t : HwType) : Operand → Prop
  | .constant value width signed =>
    let e := HwExpr.int value (.scalar width signed)
    ∃ n, Denotes s e n ∧ (width.toNat ≤ 64 → n = Literal.number value width signed) ∧
      Denotes s (e.coerce (.scalar width signed) t) n
  | .computed type => ∀ n, type.Holds n → t.Holds n

/-- The operands that are changed: unsigned constants with the highest bit of the word set, and
values of the greatest width, if they become signed. -/
def IsChanged (t : HwType) : Operand → Prop
  | .constant value _ signed => signed = false ∧ value.toInt < 0 ∧ t.IsSigned
  | .computed type => type = .unsigned 65535 ∧ t.IsSigned

end Operand

theorem Denotes.unique {e : HwExpr} {m : Int} (h : Denotes s e m) (h' : Denotes s e n) : m = n := by
  obtain ⟨_, _, _, hcode, rfl⟩ := h fun _ ↦ none
  obtain ⟨_, _, _, hcode', rfl⟩ := h' fun _ ↦ none
  rw [hcode] at hcode'
  cases hcode'
  rfl

theorem denotes_int (s : Scope) (value : Int64) (width : UInt16) (signed : Bool) :
    Denotes s (.int value (.scalar width signed))
      (number signed (BitVec.ofInt width.toNat value.toInt)) :=
  fun _ ↦ ⟨signed, width.toNat, _, denote_literalCode, rfl⟩

theorem number_ofInt_of_holds (h : (HwType.scalar width signed).Holds n) :
    number signed (BitVec.ofInt width.toNat n) = n := by
  cases signed with
  | true => exact BitVec.toInt_ofInt_eq_self h.1 h.2.1 h.2.2
  | false =>
    obtain ⟨hlow, hhigh⟩ := h
    have hpow : ((2 ^ width.toNat : Nat) : Int) = 2 ^ width.toNat := by push_cast; rfl
    simp only [number, Bool.false_eq_true, if_false, BitVec.toNat_ofInt, hpow]
    rw [Int.emod_eq_of_lt hlow hhigh, Int.toNat_of_nonneg hlow]

theorem denotes_of_represents (s : Scope) (h : t.represents value = true) :
    Denotes s (.int value t) value.toInt := by
  have hholds := HwType.represents_iff.1 h
  cases t with
  | signed width =>
    have hnumber : number true (BitVec.ofInt width.toNat value.toInt) = value.toInt :=
      number_ofInt_of_holds hholds
    rw [← hnumber]
    exact denotes_int s value width true
  | unsigned width =>
    have hnumber : number false (BitVec.ofInt width.toNat value.toInt) = value.toInt :=
      number_ofInt_of_holds hholds
    rw [← hnumber]
    exact denotes_int s value width false
  | boolean | array => cases hholds

/-- A constant is written with the type in which it meets another operand, or it is an unsigned word
with the highest bit set that is made wider. -/
theorem coerce_cases (h : Literal.IsNormal value width signed)
    (hmeet : t.represents value = true ∨ (HwType.scalar width signed).promote b = some t) :
    t = .scalar width signed ∨ t.represents value = true ∨
      ∃ w, signed = false ∧ value.toInt < 0 ∧ t = .unsigned w ∧ width.toNat ≤ w.toNat := by
  rcases hmeet with hfits | hmeet
  · exact .inr (.inl hfits)
  by_cases hne : HwType.scalar width signed = b
  · unfold HwType.promote at hmeet
    rw [if_pos hne] at hmeet
    cases hmeet
    exact .inl rfl
  have hholds (hsign : signed = true ∨ 0 ≤ value.toInt) :
      value = 0 ∨ (HwType.scalar width signed).Holds value.toInt :=
    width.toNat.eq_zero_or_pos.imp h.eq_zero (h.holds · hsign)
  have hzero {w : UInt16} (hw : 0 < w.toNat) : (HwType.signed w).Holds (0 : Int64).toInt :=
    ⟨hw, neg_nonpos.2 (by positivity), by positivity⟩
  rw [HwType.represents_iff]
  rcases HwType.promote_cases hmeet hne with ⟨v, w, ha, rfl, rfl⟩ | ⟨v, w, ha, rfl, rfl⟩ |
    ⟨k, u, w, ⟨ha, rfl⟩ | ⟨ha, rfl⟩, rfl, hk, hu⟩
  all_goals cases signed <;> cases ha
  · have hwidths : width.toNat ≠ w.toNat := fun heq ↦
      hne (congrArg HwType.signed (UInt16.toNat_inj.1 heq))
    refine .inr (.inl ?_)
    rcases hholds (.inl rfl) with rfl | hholds
    · exact hzero (by rw [toNat_max_width]; omega)
    · exact HwType.holds_signed_of_le hholds (by rw [toNat_max_width]; omega)
  · by_cases hneg : value.toInt < 0
    · exact .inr (.inr ⟨_, rfl, hneg, rfl, by rw [toNat_max_width]; omega⟩)
    · refine .inr (.inl ?_)
      rcases hholds (.inr (Int.not_lt.1 hneg)) with rfl | hholds
      · exact ⟨le_refl _, by positivity⟩
      · exact HwType.holds_unsigned_of_le hholds (by rw [toNat_max_width]; omega)
  · refine .inr (.inl ?_)
    rcases hholds (.inl rfl) with rfl | hholds
    · exact hzero (by omega)
    · exact HwType.holds_signed_of_le hholds hk
  · refine .inr (.inl ?_)
    by_cases hwide : 64 ≤ w.toNat
    · exact HwType.holds_word hwide
    · have hneg : ¬value.toInt < 0 := fun hneg ↦ by
        have := h.le_of_neg hneg
        omega
      rcases hholds (.inr (Int.not_lt.1 hneg)) with rfl | hholds
      · exact hzero (by omega)
      · exact HwType.holds_signed_of_lt hholds (by omega)

theorem number_ofInt_of_neg (hneg : value.toInt < 0) :
    number false (BitVec.ofInt width.toNat value.toInt) ≠ value.toInt := by
  intro h
  have hnonneg : 0 ≤ number false (BitVec.ofInt width.toNat value.toInt) := Int.natCast_nonneg _
  omega

theorem number_ofInt_of_isNormal (h : Literal.IsNormal value width signed)
    (hle : width.toNat ≤ 64) : number signed (BitVec.ofInt width.toNat value.toInt) =
      Literal.number value width signed := by
  rcases width.toNat.eq_zero_or_pos with hzero | hpos
  · cases h.eq_zero hzero
    rw [number, Literal.number]
    cases signed <;> simp
  · exact number_ofInt ⟨hpos, hle, h⟩

theorem denotes_widened (s : Scope) (value : Int64) {v w : UInt16} (hle : v.toNat ≤ w.toNat) :
    Denotes s (.resize (.int value (.unsigned v)) (.unsigned v) (.unsigned w))
      (number false (BitVec.ofInt v.toNat value.toInt)) := by
  intro names
  refine ⟨false, w.toNat, (BitVec.ofInt v.toNat value.toInt).setWidth w.toNat, ?_, ?_⟩
  · have hcode := @denote_literalCode names value v false
    change (Code.resize (literalCode value (.scalar v false)) w.toNat).denote names = _
    rw [Code.denote, hcode]
    rfl
  · simp only [number, Bool.false_eq_true, if_false]
    rw [BitVec.toNat_setWidth_of_le hle]

namespace Operand

theorem kept_constant (s : Scope) (t : HwType) (h : Literal.IsNormal value width signed) :
    (constant value width signed).Kept s t ↔
      Denotes s ((HwExpr.int value (.scalar width signed)).coerce (.scalar width signed) t)
        (number signed (BitVec.ofInt width.toNat value.toInt)) := by
  have hown := denotes_int s value width signed
  constructor
  · rintro ⟨n, hn, -, hconverted⟩
    rwa [hown.unique hn]
  · intro hconverted
    exact ⟨_, hown, number_ofInt_of_isNormal h, hconverted⟩

/-- A constant that is written with another type is the same number unless it was a number that no
word has. -/
theorem kept_of_fits (s : Scope) (h : Literal.IsNormal value width signed)
    (hne : t ≠ .scalar width signed) (hfits : t.represents value = true) :
    (constant value width signed).Kept s t ↔ ¬(constant value width signed).IsChanged t := by
  have hconverted := denotes_of_represents s hfits
  rw [kept_constant s t h, HwExpr.coerce, if_neg (Ne.symm hne), if_pos hfits]
  by_cases hsign : signed = true ∨ 0 ≤ value.toInt
  · have hown : number signed (BitVec.ofInt width.toNat value.toInt) = value.toInt := by
      rcases width.toNat.eq_zero_or_pos with hzero | hpos
      · cases h.eq_zero hzero
        cases signed <;> simp [number]
      · exact number_ofInt_of_holds (h.holds hpos hsign)
    rw [hown]
    refine iff_of_true hconverted ?_
    rintro ⟨rfl, hneg, -⟩
    rcases hsign with hsign | hsign
    · cases hsign
    · omega
  · obtain ⟨hsign, hneg⟩ := not_or.1 hsign
    rw [Bool.not_eq_true] at hsign
    subst hsign
    refine iff_of_false (fun h ↦ ?_) (not_not.2 ⟨rfl, Int.not_le.1 hneg, ?_⟩)
    · exact number_ofInt_of_neg (Int.not_le.1 hneg) (h.unique hconverted)
    · have hholds := HwType.represents_iff.1 hfits
      cases t with
      | signed width => exact ⟨width, rfl⟩
      | unsigned width => exact absurd hholds.1 hneg
      | boolean | array => cases hholds

theorem kept_constant_iff (s : Scope) (h : Literal.IsNormal value width signed)
    (hmeet : t.represents value = true ∨ (HwType.scalar width signed).promote b = some t) :
    (constant value width signed).Kept s t ↔ ¬(constant value width signed).IsChanged t := by
  by_cases heq : t = .scalar width signed
  · subst heq
    rw [kept_constant s _ h, HwExpr.coerce, if_pos rfl]
    refine iff_of_true (denotes_int s value width signed) ?_
    rintro ⟨rfl, -, w, hsigned⟩
    cases hsigned
  rcases coerce_cases h hmeet with heq' | hfits | ⟨w, rfl, hneg, rfl, hle⟩
  · exact absurd heq' heq
  · exact kept_of_fits s h heq hfits
  · have hfits : ¬(HwType.unsigned w).represents value = true := fun hfits ↦
      Int.not_le.2 hneg (HwType.represents_iff.1 hfits).1
    rw [kept_constant s _ h, HwExpr.coerce, if_neg (Ne.symm heq), if_neg hfits]
    refine iff_of_true (denotes_widened s value hle) ?_
    rintro ⟨-, -, v, hv⟩
    cases hv

theorem kept_computed_iff (s : Scope) (hmeet : t = a ∨ a.promote b = some t) :
    (computed a).Kept s t ↔ ¬(computed a).IsChanged t := by
  constructor
  · rintro h ⟨rfl, width, rfl⟩
    obtain ⟨n, hn, hnot⟩ := HwType.exists_not_holds width
    exact hnot (h n hn)
  · intro h n hn
    rcases hmeet with rfl | hmeet
    · exact hn
    · exact HwType.holds_promote hmeet hn h

end Operand

theorem operandType_cases {ca cb : Option Int64} (h : operandType a ca b cb = some t) :
    (∃ value, ca = some value ∧ t = b ∧ b.represents value = true) ∨ (ca = none ∧ t = a) ∨
      a.promote b = some t := by
  cases ca with
  | none =>
    cases cb with
    | none => exact .inr (.inr h)
    | some value =>
      simp only [operandType] at h
      split at h
      next =>
        cases h
        exact .inr (.inl ⟨rfl, rfl⟩)
      next => exact .inr (.inr h)
  | some value =>
    cases cb with
    | some => exact .inr (.inr h)
    | none =>
      simp only [operandType] at h
      split at h
      next hfits =>
        cases h
        exact .inl ⟨value, rfl, rfl, hfits⟩
      next => exact .inr (.inr h)

theorem operandType_comm (a b : HwType) (ca cb : Option Int64) :
    operandType a ca b cb = operandType b cb a ca := by
  cases ca <;> cases cb <;> simp only [operandType, a.promote_comm b]

namespace Operand

theorem kept_left (s : Scope) {x : Operand} {cb : Option Int64} (hx : x.IsNormal)
    (h : operandType x.type x.constant? b cb = some t) : x.Kept s t ↔ ¬x.IsChanged t := by
  rcases operandType_cases h with ⟨value, hvalue, rfl, hfits⟩ | ⟨hnone, rfl⟩ | hmeet
  · cases x with
    | constant value' width signed =>
      refine kept_constant_iff (b := t) s hx (.inl ?_)
      cases signed <;> cases hvalue <;> exact hfits
    | computed type => cases hvalue
  · cases x with
    | constant value width signed => cases signed <;> cases hnone
    | computed type => exact kept_computed_iff (b := type) s (.inl rfl)
  · cases x with
    | constant value width signed => exact kept_constant_iff s hx (.inr hmeet)
    | computed type => exact kept_computed_iff s (.inr hmeet)

/-- Both operands keep their numbers in the type in which they meet, unless they are changed to
signed ones that cannot have these numbers. -/
theorem kept_iff (s : Scope) {x y : Operand} (hx : x.IsNormal) (hy : y.IsNormal)
    (h : operandType x.type x.constant? y.type y.constant? = some t) :
    (x.Kept s t ↔ ¬x.IsChanged t) ∧ (y.Kept s t ↔ ¬y.IsChanged t) :=
  ⟨kept_left s hx h, kept_left s hy (operandType_comm _ _ _ _ ▸ h)⟩

theorem kept_seven :
    (constant 7 32 true).IsNormal ∧
      operandType (.signed 32) (some 7) (.unsigned 8) none = some (.unsigned 8) ∧
      ∀ s : Scope, (constant 7 32 true).Kept s (.unsigned 8) ∧
        (computed (.unsigned 8)).Kept s (.unsigned 8) := by
  have hnormal : (constant 7 32 true).IsNormal := by
    change Literal.wrap (Literal.number 7 32 true) 32 true = 7
    decide
  have hmeet : operandType (.signed 32) (some 7) (.unsigned 8) none = some (.unsigned 8) := by
    decide
  refine ⟨hnormal, hmeet, fun s ↦ ?_⟩
  have hkept := kept_iff s (y := computed (.unsigned 8)) hnormal trivial hmeet
  refine ⟨hkept.1.2 ?_, hkept.2.2 ?_⟩
  · rintro ⟨hsigned, -⟩
    cases hsigned
  · rintro ⟨hwidest, -⟩
    revert hwidest
    decide

/-- The greatest unsigned word is minus one beside a signed operand. -/
theorem exists_changed_allOnes :
    operandType (constant (-1) 64 false).type (constant (-1) 64 false).constant? (.signed 8) none =
        some (.signed 8) ∧
      Literal.number (-1) 64 false = 2 ^ 64 - 1 ∧ (constant (-1) 64 false).IsNormal ∧
      ∀ s : Scope, ¬(constant (-1) 64 false).Kept s (.signed 8) ∧
        Denotes s ((HwExpr.int (-1) (.unsigned 64)).coerce (.unsigned 64) (.signed 8)) (-1) := by
  have hnormal : Literal.IsNormal (-1) 64 false := by
    unfold Literal.IsNormal
    decide
  refine ⟨by decide, by decide, hnormal, fun s ↦ ⟨?_, denotes_of_represents s (by decide)⟩⟩
  rw [kept_constant_iff (b := .boolean) s hnormal (.inl (by decide)), not_not]
  exact ⟨rfl, by decide, 8, rfl⟩

end Operand

end Vhdl

end Fabric
