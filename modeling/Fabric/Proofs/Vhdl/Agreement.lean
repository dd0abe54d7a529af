import Fabric.Proofs.Construction.Expr
import Fabric.Proofs.Synthesis.Planned
import Fabric.Proofs.Vhdl.Arithmetic

namespace Fabric

namespace Literal

def ShiftsWhole (op : BinaryOp) (x y : Int) (width : UInt16) (signed : Bool) : Prop :=
  (evalShift op x y.toNat).map (wrap · width signed) =
    (evalShift op x (shiftAmount y width)).map (wrap · width signed)

/-- The condition under which an operator has the same value in hardware as it has folded. -/
def Agrees (op : BinaryOp) (x y : Int) (width : UInt16) (signed : Bool) : Prop :=
  (op = .mul → signed = true → KeepsSign (x * y) width) ∧ ShiftsWhole op x y width signed

-- In six bits folding takes a shift by two for no shift at all.
example : ¬ShiftsWhole .shl 1 2 6 false := by
  unfold ShiftsWhole
  decide

end Literal

namespace Vhdl

open Datum

variable {names : String → Option Datum} {value : Int64} {width : UInt16} {signed : Bool}

theorem vector_eq {w v : Nat} {a : BitVec w} {b : BitVec v} (hw : w = v)
    (h : ∀ i < v, a.getLsbD i = b.getLsbD i) : Datum.vector signed w a = .vector signed v b := by
  subst hw
  rw [BitVec.eq_of_getLsbD_eq_iff.2 h]

theorem getLsbD_ofInt {w i : Nat} (hi : i < w) (x : Int) :
    (BitVec.ofInt w x).getLsbD i = (x / 2 ^ i % 2 == 1) := by
  have hnonneg := Int.emod_nonneg x (show (2 : Int) ^ w ≠ 0 by positivity)
  obtain ⟨k, rfl⟩ : ∃ k, w = i + (k + 1) := ⟨w - i - 1, by omega⟩
  have hsplit : x / 2 ^ i = x % 2 ^ (i + (k + 1)) / 2 ^ i + 2 * (2 ^ k * (x / 2 ^ (i + (k + 1)))) := by
    conv_lhs => rw [← Int.emod_add_mul_ediv x (2 ^ (i + (k + 1)))]
    rw [← Int.add_mul_ediv_left _ _ (show (2 : Int) ^ i ≠ 0 by positivity)]
    congr 2
    ring
  rw [BitVec.getLsbD, BitVec.toNat_ofInt, Nat.testBit_eq_decide_div_mod_eq, hsplit]
  rw [Bool.eq_iff_iff, decide_eq_true_eq, beq_iff_eq, Int.add_mul_emod_self_left]
  push_cast
  obtain ⟨m, hm⟩ := Int.eq_ofNat_of_zero_le hnonneg
  rw [hm, Int.toNat_natCast]
  norm_cast

theorem toInt_ediv_pow {i : Nat} (hi : 63 ≤ i) : value.toInt / 2 ^ i = value.toInt / 2 ^ 63 := by
  have hlow : -(2 : Int) ^ 63 ≤ value.toInt := value.le_toInt
  have hhigh : value.toInt < (2 : Int) ^ 63 := value.toInt_lt
  have hpow : (2 : Int) ^ 63 ≤ 2 ^ i := pow_le_pow_right₀ (by decide) hi
  by_cases hneg : value.toInt < 0
  · rw [Int.ediv_eq_neg_one_of_neg_of_le hneg (by omega),
      Int.ediv_eq_neg_one_of_neg_of_le hneg (by omega)]
  · rw [Int.ediv_eq_zero_of_lt (by omega) (by omega), Int.ediv_eq_zero_of_lt (by omega) hhigh]

theorem vector_bitsOf :
    Datum.vector signed _ (.ofBoolListBE (bitsOf value width.toNat)) =
      .vector signed width.toNat (.ofInt _ value.toInt) := by
  have hlength : (bitsOf value width.toNat).length = width.toNat := by simp [bitsOf]
  refine vector_eq hlength fun i hi ↦ ?_
  have hplace : (List.range width.toNat).reverse[width.toNat - 1 - i]? = some i := by
    rw [List.getElem?_reverse (by simp; omega), List.length_range, List.getElem?_range (by omega)]
    congr 1
    omega
  have hbit : value.toInt / 2 ^ min i 63 = value.toInt / 2 ^ i := by
    rcases Nat.le_total i 63 with hle | hle
    · rw [Nat.min_eq_left hle]
    · rw [Nat.min_eq_right hle, toInt_ediv_pow hle]
  rw [BitVec.getLsbD_ofBoolListBE, getLsbD_ofInt hi, hlength, bitsOf, List.getD_eq_getElem?_getD,
    List.getElem?_map, hplace]
  simp [hi, twoPow_eq, hbit]

theorem denote_literalCode :
    (literalCode value (.scalar width signed)).denote names =
      some (ofLiteral (.int value width signed)) := by
  cases signed with
  | true =>
    simp only [HwType.scalar, if_true, literalCode]
    split
    · rfl
    · rw [Code.denote, vector_bitsOf, ofLiteral]
  | false =>
    simp only [HwType.scalar, Bool.false_eq_true, if_false, literalCode]
    split
    next h => rw [Code.denote, if_pos h.1, ofLiteral]
    · rw [Code.denote, vector_bitsOf, ofLiteral]

def decimal? (ds : List Char) : Option Nat :=
  if ds ≠ [] ∧ ds.all Char.isDigit then some (Nat.ofDigitChars 10 ds 0) else none

def integer? : List Char → Option Int
  | '-' :: ds => (decimal? ds).map fun n ↦ -(n : Int)
  | ds => (decimal? ds).map fun n ↦ (n : Int)

def call? (text : String) : Option (String × List Char) :=
  match text.toList.dropWhile (· ≠ '(') with
  | '(' :: rest =>
    (rest.dropSuffix? [')']).map fun inner ↦
      (String.ofList (text.toList.takeWhile (· ≠ '(')), inner)
  | _ => none

def arguments? (cs : List Char) : Option (Int × Nat) :=
  match cs.dropWhile (· ≠ ',') with
  | ',' :: ' ' :: width =>
    (integer? (cs.takeWhile (· ≠ ','))).bind fun n ↦ (decimal? width).map fun w ↦ (n, w)
  | _ => none

def bits? : List Char → Option (List Bool)
  | '"' :: rest =>
    (rest.dropSuffix? ['"']).bind fun cs ↦
      if cs.all fun c ↦ c = '0' ∨ c = '1' then some (cs.map fun c ↦ decide (c = '1')) else none
  | _ => none

/-- What the text of a constant denotes. Numbers are signed words of 32 bits, not negative if they become
unsigned vectors, and are cut to the width of the vector. -/
def constant? (text : String) : Option Datum :=
  (call? text).bind fun (head, inner) ↦
    match head with
    | "to_signed" => (arguments? inner).bind fun (n, width) ↦
      if -2 ^ 31 ≤ n ∧ n < 2 ^ 31 then some (.vector true width (.ofInt width n)) else none
    | "to_unsigned" => (arguments? inner).bind fun (n, width) ↦
      if 0 ≤ n ∧ n < 2 ^ 31 then some (.vector false width (.ofInt width n)) else none
    | "signed'" => (bits? inner).map fun bits ↦ .vector true _ (.ofBoolListBE bits)
    | "unsigned'" => (bits? inner).map fun bits ↦ .vector false _ (.ofBoolListBE bits)
    | _ => none

theorem decimal?_toString (n : Nat) : decimal? (toString n).toList = some n := by
  have hdigits : ∀ c ∈ (toString n).toList, c.isDigit := fun _ ↦ Text.isDigit_of_mem_toString
  rw [decimal?]
  rw [Nat.toString_eq_ofList_toDigits, String.toList_ofList] at hdigits ⊢
  rw [if_pos ⟨Nat.toDigits_ne_nil, List.all_eq_true.2 hdigits⟩, Nat.ofDigitChars_ten_toDigits]

theorem toString_negSucc (n : Nat) : (toString (Int.negSucc n)).toList =
    '-' :: (toString (n + 1)).toList := by
  have heq : toString (Int.negSucc n) = "-" ++ toString (n + 1) := rfl
  simp [heq]

theorem integer?_toString (n : Int) : integer? (toString n).toList = some n := by
  cases n with
  | ofNat n =>
    change integer? (toString n).toList = _
    unfold integer?
    split
    next ds h => exact absurd (Text.isDigit_of_mem_toString (h ▸ List.mem_cons_self)) (by decide)
    · rw [decimal?_toString]
      rfl
  | negSucc n =>
    rw [toString_negSucc, integer?, decimal?_toString]
    rfl

theorem comma_not_mem (n : Int) : ',' ∉ (toString n).toList := by
  cases n with
  | ofNat n => exact fun h ↦ absurd (Text.isDigit_of_mem_toString (n := n) h) (by decide)
  | negSucc n =>
    rw [toString_negSucc]
    intro h
    rcases List.mem_cons.1 h with h | h
    · cases h
    · exact absurd (Text.isDigit_of_mem_toString h) (by decide)

theorem call?_append {head : String} (h : '(' ∉ head.toList) (inner : String) :
    call? (head ++ "(" ++ inner ++ ")") = some (head, inner.toList) := by
  have hhead : ∀ c ∈ head.toList, decide (c ≠ '(') = true := by
    intro c hc
    rw [decide_eq_true_eq]
    rintro rfl
    exact h hc
  have hlist : (head ++ "(" ++ inner ++ ")").toList = head.toList ++ '(' :: (inner.toList ++ [')']) := by
    simp
  have hsuffix : (inner.toList ++ [')']).dropSuffix? [')'] = some inner.toList :=
    List.dropSuffix?_eq_some_iff.2 ⟨_, rfl, BEq.rfl⟩
  rw [call?, hlist, List.dropWhile_append_of_pos hhead, List.takeWhile_append_of_pos hhead,
    List.dropWhile_cons_of_neg (by decide), List.takeWhile_cons_of_neg (by decide), List.append_nil]
  simp only [hsuffix, Option.map_some, String.ofList_toList]

theorem arguments?_append (n : Int) (width : Nat) :
    arguments? (toString n ++ ", " ++ toString width).toList = some (n, width) := by
  have hnumber : ∀ c ∈ (toString n).toList, decide (c ≠ ',') = true := by
    intro c hc
    rw [decide_eq_true_eq]
    rintro rfl
    exact comma_not_mem n hc
  have hlist : (toString n ++ ", " ++ toString width).toList =
      (toString n).toList ++ ',' :: ' ' :: (toString width).toList := by
    simp
  rw [arguments?, hlist, List.dropWhile_append_of_pos hnumber, List.takeWhile_append_of_pos hnumber,
    List.dropWhile_cons_of_neg (by decide), List.takeWhile_cons_of_neg (by decide), List.append_nil]
  simp only [integer?_toString, Option.bind_some, decimal?_toString, Option.map_some]

theorem bits?_bitText (bits : List Bool) :
    bits? ("\"" ++ Code.bitText bits ++ "\"").toList = some bits := by
  have hlist : ("\"" ++ Code.bitText bits ++ "\"").toList =
      '"' :: (bits.map (fun b ↦ if b then '1' else '0') ++ ['"']) := by
    simp [Code.bitText]
  rw [hlist, bits?, List.dropSuffix?_eq_some_iff.2 ⟨_, rfl, BEq.rfl⟩, Option.bind_some, if_pos,
    List.map_map]
  · congr 1
    exact List.map_id'' (fun b ↦ by cases b <;> rfl) bits
  · refine List.all_eq_true.2 fun c hc ↦ ?_
    obtain ⟨b, -, rfl⟩ := List.mem_map.1 hc
    cases b <;> decide

theorem ofDigitChars_bitText (bits : List Bool) (n : Nat) :
    Nat.ofDigitChars 2 (Code.bitText bits).toList n =
      2 ^ bits.length * n + (BitVec.ofBoolListBE bits).toNat := by
  induction bits generalizing n with
  | nil => simp [Code.bitText, BitVec.ofBoolListBE]
  | cons b bits ih =>
    have hbit : (if b then '1' else '0').toNat - '0'.toNat = b.toNat := by cases b <;> rfl
    rw [Code.bitText, String.toList_ofList] at ih ⊢
    rw [List.map_cons, Nat.ofDigitChars_cons, ih, hbit, BitVec.ofBoolListBE, BitVec.toNat_cons',
      List.length_cons, pow_succ, Nat.shiftLeft_eq]
    ring

theorem constant?_toSigned {n : Int} (h : -2 ^ 31 ≤ n ∧ n < 2 ^ 31) (w : Nat) :
    constant? (Code.toSigned n w).print = some (.vector true w (.ofInt w n)) := by
  have htext : (Code.toSigned n w).print =
      "to_signed" ++ "(" ++ (toString n ++ ", " ++ toString w) ++ ")" := by
    change "to_signed(" ++ toString n ++ ", " ++ toString w ++ ")" = _
    simp [← String.append_assoc]
  rw [constant?, htext, call?_append (by decide), Option.bind_some]
  simp only [arguments?_append, Option.bind_some, if_pos h]

theorem constant?_toUnsigned {n : Int} (h : 0 ≤ n ∧ n < 2 ^ 31) (w : Nat) :
    constant? (Code.toUnsigned n w).print = some (.vector false w (.ofInt w n)) := by
  have htext : (Code.toUnsigned n w).print =
      "to_unsigned" ++ "(" ++ (toString n ++ ", " ++ toString w) ++ ")" := by
    change "to_unsigned(" ++ toString n ++ ", " ++ toString w ++ ")" = _
    simp [← String.append_assoc]
  rw [constant?, htext, call?_append (by decide), Option.bind_some]
  simp only [arguments?_append, Option.bind_some, if_pos h]

theorem constant?_signedBits (bits : List Bool) :
    constant? (Code.signedBits bits).print = some (.vector true _ (.ofBoolListBE bits)) := by
  have htext : (Code.signedBits bits).print =
      "signed'" ++ "(" ++ ("\"" ++ Code.bitText bits ++ "\"") ++ ")" := by
    change "signed'(\"" ++ Code.bitText bits ++ "\")" = _
    exact String.toList_inj.1 (by simp)
  rw [constant?, htext, call?_append (by decide), Option.bind_some]
  simp only [bits?_bitText, Option.map_some]

theorem constant?_unsignedBits (bits : List Bool) :
    constant? (Code.unsignedBits bits).print = some (.vector false _ (.ofBoolListBE bits)) := by
  have htext : (Code.unsignedBits bits).print =
      "unsigned'" ++ "(" ++ ("\"" ++ Code.bitText bits ++ "\"") ++ ")" := by
    change "unsigned'(\"" ++ Code.bitText bits ++ "\")" = _
    exact String.toList_inj.1 (by simp)
  rw [constant?, htext, call?_append (by decide), Option.bind_some]
  simp only [bits?_bitText, Option.map_some]

theorem constant?_literalCode :
    constant? (literalCode value (.scalar width signed)).print =
      some (ofLiteral (.int value width signed)) := by
  cases signed with
  | true =>
    simp only [HwType.scalar, if_true, literalCode]
    split
    next h => rw [constant?_toSigned h, ofLiteral]
    · rw [constant?_signedBits, vector_bitsOf, ofLiteral]
  | false =>
    simp only [HwType.scalar, Bool.false_eq_true, if_false, literalCode]
    split
    next h => rw [constant?_toUnsigned h, ofLiteral]
    · rw [constant?_unsignedBits, vector_bitsOf, ofLiteral]

theorem toNat_of_vector_eq {m n : Nat} {v : BitVec m} {w : BitVec n}
    (h : Datum.vector signed m v = .vector signed n w) : v.toNat = w.toNat := by
  cases h
  rfl

/-- The bits of a constant are its value modulo the number of words of its width, and the text of a constant
that is reduced to its type denotes its number. -/
theorem constant_text (value : Int64) (width : UInt16) (signed : Bool) :
    (Code.bitText (bitsOf value width.toNat)).length = width.toNat ∧
      (Nat.ofDigitChars 2 (Code.bitText (bitsOf value width.toNat)).toList 0 : Int) =
        value.toInt % 2 ^ width.toNat ∧
      (Literal.IsReduced value width signed → ∃ bits : BitVec width.toNat,
        constant? (literalCode value (.scalar width signed)).print =
          some (.vector signed width.toNat bits) ∧
        number signed bits = Literal.number value width signed) := by
  refine ⟨by simp [Code.bitText, bitsOf], ?_, fun h ↦ ⟨_, constant?_literalCode, number_ofInt h⟩⟩
  rw [ofDigitChars_bitText, toNat_of_vector_eq (@vector_bitsOf value width signed), BitVec.toNat_ofInt]
  have hnonneg := Int.emod_nonneg value.toInt (show (2 : Int) ^ width.toNat ≠ 0 by positivity)
  push_cast
  rw [Int.toNat_of_nonneg hnonneg, mul_zero, zero_add]

/-- An unsigned word with all bits set is kept as minus one. -/
theorem constant_text_all_ones : Literal.IsReduced (-1) 64 false ∧
    ∃ bits : BitVec 64, constant? (literalCode (-1) (.unsigned 64)).print =
      some (.vector false 64 bits) ∧ number false bits = 2 ^ 64 - 1 := by
  have hreduced : Literal.IsReduced (-1) 64 false := ⟨by decide, by decide, by decide⟩
  have hnumber : Literal.number (-1) 64 false = 2 ^ 64 - 1 := by decide
  exact ⟨hreduced, hnumber ▸ (constant_text (-1) 64 false).2.2 hreduced⟩

end Vhdl

namespace Lowering

variable {l : Lowering} {a b v : Lowered}

theorem expr_shift {op : BinaryOp} (hop : op.isShift) (h : l.binary op a b = .ok v) :
    v.expr = .binary op.hardware a.expr b.expr a.type := by
  obtain ⟨-, cost, rfl⟩ | ⟨hnot, -⟩ := binary_eq_ok h
  · rfl
  · exact absurd hop hnot

theorem expr_binary {op : BinaryOp} (h : l.binary op a b = .ok v) (hop : ¬op.isShift)
    (hlogical : ¬op.isLogical) (htype : a.type = b.type) (ha : a.expr.intLiteral?.isSome)
    (hb : b.expr.intLiteral?.isSome) :
    v.expr = .binary op.hardware a.expr b.expr (if op.isComparison then .boolean else a.type) := by
  obtain ⟨hshift, -⟩ | ⟨-, type, cost, ht, rfl⟩ := binary_eq_ok h
  · exact absurd hshift hop
  obtain ⟨x, hx⟩ := Option.isSome_iff_exists.1 ha
  obtain ⟨y, hy⟩ := Option.isSome_iff_exists.1 hb
  have hmeet := (operands_eq_ok ht).1
  rw [if_neg hlogical, hx, hy, ← htype] at hmeet
  simp only [operandType, HwType.promote, if_true, Option.some.injEq] at hmeet
  simp [Lowered.coerce, HwExpr.coerce, ← hmeet, ← htype]

end Lowering

namespace Vhdl

open Datum

variable {names : String → Option Datum} {s : Scope} {l : Lowering} {v : Lowered}
  {a b : Int64} {width width' : UInt16} {signed signed' : Bool} {r : Literal}

theorem denote_unary {op : UnaryOp} (ha : Literal.IsReduced a width signed)
    (hr : Literal.evalUnary op (.int a width signed) = some r)
    (hv : l.unary op (.ofLiteral (.int a width signed)) = .ok v) :
    (s.code v.expr).denote names = some (ofLiteral r) := by
  have hliteral := @denote_literalCode names a width signed
  obtain ⟨-, cost, rfl⟩ := Lowering.unary_eq_ok hv
  simp only [Lowered.ofLiteral, Lowered.free]
  cases op with
  | neg =>
    cases hr
    rw [ofLiteral_ofNumber ha.pos ha.le, BitVec.ofInt_neg, ofInt_number ha.le, UnaryOp.hardware,
      Scope.code, Code.denote, Scope.code, hliteral]
    rfl
  | not =>
    cases hr
    rw [ofLiteral_ofNumber ha.pos ha.le, ofInt_complement, ofInt_number ha.le, UnaryOp.hardware,
      Scope.code, Code.denote, Scope.code, hliteral]
    rfl
  | logicNot => cases hr

theorem operation_ofLiteral (op : HwBinaryOp) :
    operation op (ofLiteral (.int a width signed)) (ofLiteral (.int b width signed)) =
      vectors op signed (.ofInt width.toNat a.toInt) (.ofInt width.toNat b.toInt) := by
  simp [operation, ofLiteral]

theorem denote_operation {op : BinaryOp} (ha : Literal.IsReduced a width signed)
    (hb : Literal.IsReduced b width signed) (hmul : op ≠ .mul) (hshift : ¬op.isShift)
    (hr : Literal.evalBinary op (.int a width signed) (.int b width signed) = .ok (some r)) :
    (Code.operation op.hardware (literalCode a (.scalar width signed))
      (literalCode b (.scalar width signed))).denote names = some (ofLiteral r) := by
  have hx := number_ofInt ha
  have hy := number_ofInt hb
  rw [Code.denote, denote_literalCode, denote_literalCode, Option.bind_some,
    Option.bind_some, operation_ofLiteral]
  rw [Literal.evalBinary_of_not_shift hshift, ← hx, ← hy] at hr
  split at hr
  next hcompare =>
    cases hr
    exact vectors_compare hcompare
  next =>
    obtain ⟨n, hn, rfl⟩ := Option.map_eq_some_iff.1 (Except.ok.inj hr)
    rw [ofLiteral_ofNumber ha.pos ha.le]
    exact vectors_evalNumber ha.le hmul hn

theorem keepsSign_iff (hpos : 0 < width.toNat) (hle : width.toNat ≤ 64) (n : Int) :
    Literal.KeepsSign n width ↔ (n < 0 ↔ (BitVec.ofInt width.toNat n).toInt < 0) := by
  rw [Literal.KeepsSign, toInt_wrap hpos hle]

theorem denote_product_iff (ha : Literal.IsReduced a width signed)
    (hb : Literal.IsReduced b width signed)
    (hr : Literal.evalBinary .mul (.int a width signed) (.int b width signed) = .ok (some r)) :
    (Code.resize (.product (literalCode a (.scalar width signed))
      (literalCode b (.scalar width signed))) width.toNat).denote names = some (ofLiteral r) ↔
      (signed = true → Literal.KeepsSign
        (Literal.number a width signed * Literal.number b width signed) width) := by
  have hproduct := @number_productBits _ signed ha.pos (.ofInt width.toNat a.toInt)
    (.ofInt width.toNat b.toInt)
  rw [number_ofInt ha, number_ofInt hb] at hproduct
  have hiff := @resizeBits_eq_iff _ signed
    (productBits signed (.ofInt width.toNat a.toInt) (.ofInt width.toNat b.toInt)) _ ha.pos
  rw [hproduct] at hiff
  have hwide : width.toNat < width.toNat + width.toNat := Nat.lt_add_of_pos_left ha.pos
  have hdenote : (Code.resize (.product (literalCode a (.scalar width signed))
      (literalCode b (.scalar width signed))) width.toNat).denote names =
      some (.vector signed width.toNat (resizeBits signed
        (productBits signed (.ofInt width.toNat a.toInt) (.ofInt width.toNat b.toInt)) _)) := by
    rw [Code.denote, Code.denote, denote_literalCode, denote_literalCode,
      Option.bind_some, Option.bind_some, operation_ofLiteral]
    rfl
  have hfolded : ofLiteral r = .vector signed width.toNat
      (.ofInt _ (Literal.number a width signed * Literal.number b width signed)) := by
    simp only [Literal.evalBinary, Literal.evalShift, Literal.compare, Literal.evalNumber,
      Literal.product, ne_eq, not_true_eq_false, or_self, if_false] at hr
    obtain ⟨n, hn, rfl⟩ := Option.map_eq_some_iff.1 (Except.ok.inj hr)
    obtain ⟨-, hn⟩ := Option.ite_none_right_eq_some.1 hn
    cases hn
    exact ofLiteral_ofNumber ha.pos ha.le _
  rw [hdenote, hfolded, Option.some.injEq, Datum.vector.injEq, heq_eq_eq, hiff,
    keepsSign_iff ha.pos ha.le]
  simp [hwide]

theorem amount?_ofLiteral (hb : Literal.IsReduced b width signed)
    (h : 0 ≤ Literal.number b width signed) :
    amount? (ofLiteral (.int b width signed)) = some (Literal.number b width signed).toNat := by
  rw [ofLiteral, amount?, number_ofInt hb, if_pos h]

theorem denote_shift {op : BinaryOp} {type : HwType} {n : Int}
    (ha : Literal.IsReduced a width signed) (hb : Literal.IsReduced b width' signed')
    (hy : 0 ≤ Literal.number b width' signed')
    (hn : Literal.evalShift op (Literal.number a width signed)
      (Literal.number b width' signed').toNat = some n) :
    (s.code (.binary op.hardware (.int a (.scalar width signed)) (.int b (.scalar width' signed'))
      type)).denote names = some (ofLiteral (.ofNumber n width signed)) := by
  rw [ofLiteral_ofNumber ha.pos ha.le]
  cases op with
  | shl =>
    cases hn
    rw [BinaryOp.hardware, Scope.code, Code.denote, Scope.code, Scope.code,
      denote_literalCode, denote_literalCode, Option.bind_some, Option.bind_some,
      amount?_ofLiteral hb hy, Option.bind_some, ofLiteral, shiftLeft, shiftLeft_number,
      number_ofInt ha]
  | shr =>
    cases hn
    rw [BinaryOp.hardware, Scope.code, Code.denote, Scope.code, Scope.code,
      denote_literalCode, denote_literalCode, Option.bind_some, Option.bind_some,
      amount?_ofLiteral hb hy, Option.bind_some, ofLiteral, shiftRight, shiftRight_number,
      number_ofInt ha]
  | _ => cases hn

theorem ofLiteral_ofNumber_inj (hpos : 0 < width.toNat) (hle : width.toNat ≤ 64) {m n : Int} :
    ofLiteral (.ofNumber m width signed) = ofLiteral (.ofNumber n width signed) ↔
      Literal.wrap m width signed = Literal.wrap n width signed := by
  rw [ofLiteral_ofNumber hpos hle, ofLiteral_ofNumber hpos hle, Datum.vector.injEq, heq_eq_eq,
    wrap_eq_iff hpos hle]
  simp

theorem denote_shift_iff {op : BinaryOp} {type : HwType} (hop : op.isShift)
    (ha : Literal.IsReduced a width signed) (hb : Literal.IsReduced b width' signed')
    (hy : 0 ≤ Literal.number b width' signed')
    (hr : Literal.evalBinary op (.int a width signed) (.int b width' signed') = .ok (some r)) :
    (s.code (.binary op.hardware (.int a (.scalar width signed)) (.int b (.scalar width' signed'))
      type)).denote names = some (ofLiteral r) ↔
      Literal.ShiftsWhole op (Literal.number a width signed) (Literal.number b width' signed') width
        signed := by
  obtain ⟨m, hm⟩ := Literal.exists_evalShift hop (Literal.number a width signed)
    (Literal.number b width' signed').toNat
  obtain ⟨n, hn⟩ := Literal.exists_evalShift hop (Literal.number a width signed)
    (Literal.shiftAmount (Literal.number b width' signed') width)
  rw [Literal.evalBinary_of_evalShift hn (Literal.shiftAmount_lt ha.le _)] at hr
  rw [denote_shift ha hb hy hm, ← Option.some.inj (Except.ok.inj hr), Option.some.injEq, ofLiteral_ofNumber_inj ha.pos ha.le,
    Literal.ShiftsWhole, hm, hn]
  simp

theorem eq_of_evalBinary {op : BinaryOp} (hop : ¬op.isShift)
    (hr : Literal.evalBinary op (.int a width signed) (.int b width' signed') = .ok (some r)) :
    (width' = width ∧ signed' = signed) ∧ ¬op.isLogical := by
  simp only [Literal.evalBinary, Literal.evalShift_of_not_isShift hop] at hr
  split at hr
  · cases hr
  next htypes =>
    simp only [ne_eq, not_or, not_not] at htypes
    refine ⟨⟨htypes.1.symm, htypes.2.symm⟩, ?_⟩
    intro hlogical
    cases op with
    | logicAnd | logicOr => cases hr
    | _ => cases hlogical

theorem denote_binary_iff {op : BinaryOp} (ha : Literal.IsReduced a width signed)
    (hb : Literal.IsReduced b width' signed')
    (hy : op.isShift → 0 ≤ Literal.number b width' signed')
    (hr : Literal.evalBinary op (.int a width signed) (.int b width' signed') = .ok (some r))
    (hv : l.binary op (.ofLiteral (.int a width signed)) (.ofLiteral (.int b width' signed')) =
      .ok v) :
    (s.code v.expr).denote names = some (ofLiteral r) ↔
      Literal.Agrees op (Literal.number a width signed) (Literal.number b width' signed') width
        signed := by
  by_cases hop : op.isShift
  · have hmul : op ≠ .mul := by
      rintro rfl
      cases hop
    rw [Lowering.expr_shift hop hv, Literal.Agrees]
    simp only [Lowered.ofLiteral, Lowered.free]
    rw [denote_shift_iff hop ha hb (hy hop) hr]
    simp [hmul]
  · obtain ⟨⟨rfl, rfl⟩, hlogical⟩ := eq_of_evalBinary hop hr
    have hwhole : Literal.ShiftsWhole op (Literal.number a width' signed')
        (Literal.number b width' signed') width' signed' := by
      unfold Literal.ShiftsWhole
      cases op <;> first | rfl | exact absurd rfl hop
    have hint (x : Int64) : (HwExpr.int x (.scalar width' signed')).intLiteral?.isSome := by
      cases signed' <;> rfl
    rw [Lowering.expr_binary hv hop hlogical rfl (hint a) (hint b)]
    simp only [Lowered.ofLiteral, Lowered.free]
    by_cases hmul : op = .mul
    · subst hmul
      have hcode : s.code (.binary BinaryOp.mul.hardware (.int a (.scalar width' signed'))
          (.int b (.scalar width' signed'))
          (if BinaryOp.mul.isComparison then .boolean else .scalar width' signed')) =
          .resize (.product (literalCode a (.scalar width' signed'))
            (literalCode b (.scalar width' signed'))) width'.toNat := by
        cases signed' <;> rfl
      rw [hcode, denote_product_iff ha hb hr]
      simp [Literal.Agrees, hwhole]
    · have hcode : s.code (.binary op.hardware (.int a (.scalar width' signed'))
          (.int b (.scalar width' signed'))
          (if op.isComparison then .boolean else .scalar width' signed')) =
          .operation op.hardware (literalCode a (.scalar width' signed'))
            (literalCode b (.scalar width' signed')) := by
        cases op <;> first | rfl | exact absurd rfl hmul | exact absurd rfl hop
      rw [hcode, denote_operation ha hb hmul hop hr]
      simp [Literal.Agrees, hmul, hwhole]

/-- Constants under operators. An operator is folded to the value that it has in hardware, except that
hardware keeps the sign of a product and shifts by the whole amount. -/
theorem denote_operators (l : Lowering) (s : Scope) (names : String → Option Datum)
    (ha : Literal.IsReduced a width signed) :
    (∀ (op : UnaryOp) (r : Literal) (v : Lowered),
      Literal.evalUnary op (.int a width signed) = some r →
      l.unary op (.ofLiteral (.int a width signed)) = .ok v →
      (s.code v.expr).denote names = some (ofLiteral r)) ∧
    (∀ (op : BinaryOp) (b : Int64) (width' : UInt16) (signed' : Bool) (r : Literal) (v : Lowered),
      Literal.IsReduced b width' signed' →
      (op.isShift → 0 ≤ Literal.number b width' signed') →
      Literal.evalBinary op (.int a width signed) (.int b width' signed') = .ok (some r) →
      l.binary op (.ofLiteral (.int a width signed)) (.ofLiteral (.int b width' signed')) = .ok v →
      ((s.code v.expr).denote names = some (ofLiteral r) ↔
        Literal.Agrees op (Literal.number a width signed) (Literal.number b width' signed') width
          signed)) := by
  constructor
  · intro op r v hr hv
    exact denote_unary ha hr hv
  · intro op b width' signed' r v hb hy hr hv
    exact denote_binary_iff ha hb hy hr hv

theorem exists_binary_twelve_ten : ∃ (l : Lowering) (v : Lowered),
    l.binary .mul (.ofLiteral (.int 12 8 true)) (.ofLiteral (.int 10 8 true)) = .ok v ∧
      ∀ (s : Scope) (names : String → Option Datum),
        (s.code v.expr).denote names = some (ofLiteral (.int 120 8 true)) := by
  have hcheck : Synthesis.check (pairedCaller >>= fun l ↦
      l.binary .mul (.ofLiteral (.int 12 8 true)) (.ofLiteral (.int 10 8 true)))
      (fun _ ↦ true) = true := by decide +kernel
  obtain ⟨v, hv, -⟩ := Synthesis.check_eq_true.1 hcheck
  obtain ⟨l, -, hv⟩ := Synthesis.bind_eq_ok.1 hv
  refine ⟨l, v, hv, fun s names ↦ ?_⟩
  have ha : Literal.IsReduced 12 8 true := ⟨by decide, by decide, by decide⟩
  have hb : Literal.IsReduced 10 8 true := ⟨by decide, by decide, by decide⟩
  apply ((denote_operators l s names ha).2 .mul 10 8 true _ v hb (by decide) (by decide) hv).2
  exact ⟨fun _ _ ↦ by unfold Literal.KeepsSign; decide, rfl⟩

/-- The product of 100 and 2 in eight signed bits is folded to -56 and is 72 in hardware. -/
theorem exists_binary_overflow : ∃ (l : Lowering) (v : Lowered),
    l.binary .mul (.ofLiteral (.int 100 8 true)) (.ofLiteral (.int 2 8 true)) = .ok v ∧
      Literal.evalBinary .mul (.int 100 8 true) (.int 2 8 true) = .ok (some (.int (-56) 8 true)) ∧
      ∀ (s : Scope) (names : String → Option Datum),
        (s.code v.expr).denote names = some (ofLiteral (.int 72 8 true)) ∧
          ofLiteral (.int 72 8 true) ≠ ofLiteral (.int (-56) 8 true) := by
  have hcheck : Synthesis.check (pairedCaller >>= fun l ↦
      l.binary .mul (.ofLiteral (.int 100 8 true)) (.ofLiteral (.int 2 8 true)))
      (fun _ ↦ true) = true := by decide +kernel
  obtain ⟨v, hv, -⟩ := Synthesis.check_eq_true.1 hcheck
  obtain ⟨l, -, hv⟩ := Synthesis.bind_eq_ok.1 hv
  refine ⟨l, v, hv, by decide, fun s names ↦ ?_⟩
  have hdenote : (s.code v.expr).denote names = some (ofLiteral (.int 72 8 true)) := by
    rw [Lowering.expr_binary hv (by decide) (by decide) rfl rfl rfl]
    rfl
  refine ⟨hdenote, fun h ↦ ?_⟩
  injection h with _ _ h
  revert h
  decide

/-- A conversion of an integer. It is folded to the value that it has in hardware, except that hardware
keeps the sign of a signed number that it cuts. -/
theorem denote_resize_iff {e : HwExpr} (ha : Literal.IsReduced a width signed)
    (he : (s.code e).denote names = some (ofLiteral (.int a width signed)))
    (hpos : 0 < width'.toNat) (hle : width'.toNat ≤ 64) :
    ∃ r, Literal.evalCast (.int width' signed') (.int a width signed) = some r ∧
      ((s.code (.resize e (.scalar width signed) (.scalar width' signed'))).denote names =
          some (ofLiteral r) ↔
        (signed = true → width' < width →
          Literal.KeepsSign (Literal.number a width signed) width')) := by
  refine ⟨_, rfl, ?_⟩
  have hiff := @resizeBits_eq_iff _ signed (.ofInt width.toNat a.toInt) _ hpos
  rw [number_ofInt ha] at hiff
  have hdenote : (s.code (.resize e (.scalar width signed) (.scalar width' signed'))).denote names =
      some (.vector signed' width'.toNat
        (resizeBits signed (BitVec.ofInt width.toNat a.toInt) width'.toNat)) := by
    cases signed <;> cases signed' <;>
      simp [Scope.code, HwType.scalar, resizeCode, Code.denote, he, ofLiteral, resize, Datum.read]
  rw [hdenote, ofLiteral_ofNumber hpos hle, Option.some.injEq, Datum.vector.injEq, heq_eq_eq, hiff,
    keepsSign_iff hpos hle, UInt16.lt_iff_toNat_lt]
  simp

theorem denote_resize_hundred : ∃ r,
    Literal.evalCast (.int 8 true) (.int 100 16 true) = some r ∧
      ∀ (s : Scope) (names : String → Option Datum),
        (s.code (.resize (.int 100 (.signed 16)) (.signed 16) (.signed 8))).denote names =
          some (ofLiteral r) := by
  refine ⟨_, rfl, fun s names ↦ ?_⟩
  have ha : Literal.IsReduced 100 16 true := ⟨by decide, by decide, by decide⟩
  obtain ⟨r, hr, hiff⟩ := @denote_resize_iff names s 100 16 8 true true (.int 100 (.signed 16)) ha
    rfl (by decide) (by decide)
  cases hr
  apply hiff.2
  intro _ _
  unfold Literal.KeepsSign
  decide

/-- The number 200 in eight signed bits is folded to -56 and is 72 in hardware. -/
theorem denote_resize_overflow :
    Literal.IsReduced 200 16 true ∧
      Literal.evalCast (.int 8 true) (.int 200 16 true) = some (.int (-56) 8 true) ∧
      ∀ (s : Scope) (names : String → Option Datum),
        (s.code (.resize (.int 200 (.signed 16)) (.signed 16) (.signed 8))).denote names =
            some (ofLiteral (.int 72 8 true)) ∧
          ofLiteral (.int 72 8 true) ≠ ofLiteral (.int (-56) 8 true) := by
  refine ⟨⟨by decide, by decide, by decide⟩, by decide, fun s names ↦ ⟨rfl, fun h ↦ ?_⟩⟩
  injection h with _ _ h
  revert h
  decide

end Vhdl

end Fabric
