import Fabric.Json.Printer
import Fabric.Json.Reader
import Mathlib.Data.List.DropRight

namespace Fabric.Json

/-- A document of an interchange form: every number is an integer, and every text has characters. -/
inductive Plain : Json → Prop
  | null : Plain .null
  | bool (b : Bool) : Plain (.bool b)
  | int (n : Int) : Plain (.int n)
  | str (s : String) : Plain (.str s)
  | arr {items : List Json} : (∀ j ∈ items, Plain j) → Plain (.arr items)
  | obj {members : List (String × Json)} : (∀ m ∈ members, Plain m.2) → Plain (.obj members)

attribute [simp] Plain.null Plain.bool Plain.int Plain.str

@[simp]
theorem plain_arr_iff {items : List Json} : (arr items).Plain ↔ ∀ j ∈ items, j.Plain := by
  constructor
  · rintro ⟨⟩
    assumption
  · exact .arr

@[simp]
theorem plain_obj_iff {members : List (String × Json)} :
    (obj members).Plain ↔ ∀ m ∈ members, m.2.Plain := by
  constructor
  · rintro ⟨⟩
    assumption
  · exact .obj

def EndsNumber (cs : List Char) : Prop :=
  ∀ c ∈ cs.head?, c.isDigit = false ∧ c ≠ '.' ∧ c ≠ 'e' ∧ c ≠ 'E'

theorem endsNumber_cons {c : Char} (h : c.isDigit = false ∧ c ≠ '.' ∧ c ≠ 'e' ∧ c ≠ 'E')
    (cs : List Char) : EndsNumber (c :: cs) := by
  rintro _ ⟨⟩
  exact h

theorem natOfDigits_toDigits (n : Nat) : natOfDigits (Nat.toDigits 10 n) = n := by
  have hdigits := Nat.ofDigitChars_ten_toDigits (n := n)
  rwa [Nat.ofDigitChars_eq_foldl] at hdigits

/-- Only zero starts with a zero. -/
theorem eq_zero_of_toDigits {n : Nat} {cs : List Char} (h : Nat.toDigits 10 n = '0' :: cs) :
    n = 0 := by
  induction n using Nat.strongRecOn generalizing cs with
  | ind n ih =>
    by_cases hn : n < 10
    · rw [Nat.toDigits_of_lt_base hn] at h
      exact Nat.digitChar_eq_zero.1 (List.cons.inj h).1
    · rw [Nat.toDigits_of_base_le (by decide) (by omega)] at h
      have hne : Nat.toDigits 10 (n / 10) ≠ [] := Nat.toDigits_ne_nil
      obtain ⟨c, ds, hds⟩ := List.exists_cons_of_ne_nil hne
      rw [hds, List.cons_append] at h
      obtain rfl := (List.cons.inj h).1
      have hquotient := ih (n / 10) (by omega) hds
      omega

theorem takeWhile_digits {ds rest : List Char} (hds : ∀ c ∈ ds, c.isDigit)
    (hrest : EndsNumber rest) :
    (ds ++ rest).takeWhile Char.isDigit = ds ∧ (ds ++ rest).dropWhile Char.isDigit = rest := by
  rw [List.takeWhile_append_of_pos hds, List.dropWhile_append_of_pos hds]
  cases rest with
  | nil => simp
  | cons c rest => simp [(hrest c rfl).1]

theorem readFraction_of_endsNumber {rest : List Char} (h : EndsNumber rest) :
    readFraction rest = some ([], rest) := by
  unfold readFraction
  split
  next cs => exact absurd rfl (h '.' rfl).2.1
  next => rfl

theorem readExponent_of_endsNumber {rest : List Char} (h : EndsNumber rest) :
    readExponent rest = some ([], rest) := by
  cases rest with
  | nil => rfl
  | cons c rest =>
    obtain ⟨-, -, he, hE⟩ := h c rfl
    unfold readExponent
    dsimp only
    rw [if_neg (by simp [he, hE])]

/-- A leading zero is read alone, but it leads in zero only. -/
theorem readWhole_toDigits (n : Nat) {rest : List Char} (h : EndsNumber rest) :
    readWhole (Nat.toDigits 10 n ++ rest) = (Nat.toDigits 10 n, rest) := by
  have hdigits : ∀ c ∈ Nat.toDigits 10 n, c.isDigit := fun c hc ↦
    Nat.isDigit_of_mem_toDigits (by decide) (by decide) hc
  unfold readWhole
  split
  next r hr =>
    obtain ⟨c, ds, hds⟩ := List.exists_cons_of_ne_nil (Nat.toDigits_ne_nil (n := n) (b := 10))
    rw [hds, List.cons_append] at hr
    obtain ⟨rfl, htail⟩ := List.cons.inj hr
    obtain rfl := eq_zero_of_toDigits hds
    obtain rfl : ds = [] := (List.cons.inj hds).2.symm
    exact congrArg (Prod.mk ['0']) htail.symm
  next => rw [(takeWhile_digits hdigits h).1, (takeWhile_digits hdigits h).2]

theorem readSign_toDigits (n : Nat) (rest : List Char) :
    readSign (Nat.toDigits 10 n ++ rest) = (false, Nat.toDigits 10 n ++ rest) := by
  unfold readSign
  split
  next r hr =>
    obtain ⟨c, ds, hds⟩ := List.exists_cons_of_ne_nil (Nat.toDigits_ne_nil (n := n) (b := 10))
    have hdigit : c.isDigit :=
      Nat.isDigit_of_mem_toDigits (b := 10) (n := n) (by decide) (by decide)
        (hds ▸ List.mem_cons_self)
    rw [hds, List.cons_append] at hr
    rw [(List.cons.inj hr).1] at hdigit
    cases hdigit
  next => rfl

theorem toList_toString_ofNat (m : Nat) :
    (toString (Int.ofNat m)).toList = Nat.toDigits 10 m := by
  have heq : toString (Int.ofNat m) = toString m := rfl
  rw [heq, Nat.toString_eq_ofList_toDigits, String.toList_ofList]

theorem toList_toString_negSucc (m : Nat) :
    (toString (Int.negSucc m)).toList = '-' :: Nat.toDigits 10 (m + 1) := by
  have heq : toString (Int.negSucc m) = "-" ++ toString (m + 1) := rfl
  rw [heq, Nat.toString_eq_ofList_toDigits, String.toList_append]
  simp

theorem readNumber_toString (n : Int) {rest : List Char} (h : EndsNumber rest) :
    readNumber ((toString n).toList ++ rest) = some (.int n, rest) := by
  have hne (m : Nat) : (Nat.toDigits 10 m).isEmpty = false := by
    simp [Nat.toDigits_ne_nil]
  cases n with
  | ofNat m =>
    rw [toList_toString_ofNat]
    unfold readNumber
    rw [readSign_toDigits]
    dsimp only
    rw [readWhole_toDigits m h]
    simp [hne, readFraction_of_endsNumber h, readExponent_of_endsNumber h, natOfDigits_toDigits]
  | negSucc m =>
    rw [toList_toString_negSucc]
    unfold readNumber
    rw [List.cons_append, readSign]
    dsimp only
    rw [readWhole_toDigits (m + 1) h, Int.negSucc_eq]
    simp [hne, readFraction_of_endsNumber h, readExponent_of_endsNumber h, natOfDigits_toDigits]

theorem hexValue_hexDigit {n : Nat} (h : n < 16) : Text.hexValue (Text.hexDigit n) = some n := by
  revert n
  decide

theorem hexUnit_of_lt {n : Nat} (h : n < 32) :
    hexUnit '0' '0' (Text.hexDigit (n / 16)) (Text.hexDigit (n % 16)) = some n := by
  have hzero : Text.hexValue '0' = some 0 := rfl
  simp only [hexUnit, hzero, hexValue_hexDigit (show n / 16 < 16 by omega),
    hexValue_hexDigit (show n % 16 < 16 by omega), Option.bind_eq_bind, Option.bind_some]
  exact congrArg some (by omega)

/-- A character is escaped by a letter, or by its number, or it stands for itself. -/
theorem escape_cases (c : Char) :
    (∃ e, plainEscape e = some c ∧ escape c = ['\\', e]) ∨
      (c.toNat < 0x20 ∧ escape c =
        ['\\', 'u', '0', '0', Text.hexDigit (c.toNat / 16), Text.hexDigit (c.toNat % 16)]) ∨
      (c ≠ '"' ∧ c ≠ '\\' ∧ ¬ c.toNat < 0x20 ∧ escape c = [c]) := by
  unfold escape
  by_cases hquote : c = '"'
  · exact .inl ⟨'"', by rw [hquote]; rfl, if_pos hquote⟩
  rw [if_neg hquote]
  by_cases hbackslash : c = '\\'
  · exact .inl ⟨'\\', by rw [hbackslash]; rfl, if_pos hbackslash⟩
  rw [if_neg hbackslash]
  by_cases h : c = '\x08'
  · exact .inl ⟨'b', by rw [h]; rfl, if_pos h⟩
  rw [if_neg h]
  by_cases h : c = '\x0c'
  · exact .inl ⟨'f', by rw [h]; rfl, if_pos h⟩
  rw [if_neg h]
  by_cases h : c = '\n'
  · exact .inl ⟨'n', by rw [h]; rfl, if_pos h⟩
  rw [if_neg h]
  by_cases h : c = '\r'
  · exact .inl ⟨'r', by rw [h]; rfl, if_pos h⟩
  rw [if_neg h]
  by_cases h : c = '\t'
  · exact .inl ⟨'t', by rw [h]; rfl, if_pos h⟩
  rw [if_neg h]
  by_cases h : c.toNat < 0x20
  · exact .inr (.inl ⟨h, if_pos h⟩)
  · exact .inr (.inr ⟨hquote, hbackslash, h, if_neg h⟩)

theorem readPieces_quoted (cs rest : List Char) :
    ∃ ps, readPieces (cs.flatMap escape ++ '"' :: rest) = some (ps, rest) ∧
      joinPieces ps = some cs := by
  induction cs with
  | nil => exact ⟨[], rfl, rfl⟩
  | cons c cs ih =>
    obtain ⟨ps, hps, hjoin⟩ := ih
    rw [List.flatMap_cons, List.append_assoc]
    generalize cs.flatMap escape ++ '"' :: rest = tail at hps
    rcases escape_cases c with ⟨e, he, hc⟩ | ⟨hlt, hc⟩ | ⟨hquote, hbackslash, hge, hc⟩
    · have hne : e ≠ 'u' := by
        rintro rfl
        cases he
      refine ⟨.char c :: ps, ?_, by rw [joinPieces, hjoin, Option.map_some]⟩
      rw [hc, List.cons_append, List.singleton_append, readPieces, he]
      · dsimp only
        rw [hps, Option.map_some]
      · intro _ _ _ _ _ hu
        exact absurd hu hne
    · refine ⟨.unit c.toNat :: ps, ?_, ?_⟩
      · rw [hc]
        simp only [List.cons_append, List.nil_append]
        rw [readPieces, hexUnit_of_lt hlt]
        dsimp only
        rw [hps, Option.map_some]
      · unfold joinPieces
        rw [if_neg (by omega), if_neg (by omega), hjoin, Char.ofNat_toNat, Option.map_some]
    · refine ⟨.char c :: ps, ?_, by rw [joinPieces, hjoin, Option.map_some]⟩
      rw [hc, List.singleton_append, readPieces, if_neg hge, hps, Option.map_some]
      · exact hquote
      · intro _ _ _ _ _ h
        exact absurd h hbackslash
      · intro _ _ h
        exact absurd h hbackslash

theorem toList_quote (s : String) :
    (quote s).toList = '"' :: (s.toList.flatMap escape ++ ['"']) := by
  rw [quote, String.toList_ofList]

theorem readText_quoted (s : String) (rest : List Char) :
    readText (s.toList.flatMap escape ++ '"' :: rest) = some (some s.toList, rest) := by
  obtain ⟨ps, hps, hjoin⟩ := readPieces_quoted s.toList rest
  rw [readText, hps, Option.map_some]
  dsimp only
  rw [hjoin]

def blanks (level : Nat) : List Char := List.replicate (2 * level) ' '

theorem skipSpace_append {ws : List Char} (h : ∀ c ∈ ws, isSpace c) (cs : List Char) :
    skipSpace (ws ++ cs) = skipSpace cs :=
  List.dropWhile_append_of_pos h

theorem skipSpace_cons {c : Char} (h : isSpace c) (cs : List Char) :
    skipSpace (c :: cs) = skipSpace cs :=
  List.dropWhile_cons_of_pos h

theorem isSpace_of_mem_blanks {level : Nat} : ∀ c ∈ '\n' :: blanks level, isSpace c := by
  refine List.forall_mem_cons.2 ⟨rfl, fun c hc ↦ ?_⟩
  rw [List.eq_of_mem_replicate hc]
  rfl

theorem skipSpace_blanks (level : Nat) {c : Char} (hc : isSpace c = false) (cs : List Char) :
    skipSpace ('\n' :: blanks level ++ c :: cs) = c :: cs := by
  rw [skipSpace_append isSpace_of_mem_blanks, skipSpace, List.dropWhile_cons_of_neg (by simp [hc])]

theorem skipSpace_skipSpace (cs : List Char) : skipSpace (skipSpace cs) = skipSpace cs := by
  unfold skipSpace
  exact List.dropWhile_idempotent _ _

theorem readValue_skipSpace (fuel : Nat) (cs : List Char) :
    readValue fuel (skipSpace cs) = readValue fuel cs := by
  cases fuel with
  | zero => rfl
  | succ fuel => rw [readValue, readValue, skipSpace_skipSpace]

theorem readValue_blanks (fuel level : Nat) (cs : List Char) :
    readValue fuel (blanks level ++ cs) = readValue fuel cs := by
  rw [← readValue_skipSpace, skipSpace_append (List.forall_mem_cons.1 isSpace_of_mem_blanks).2,
    readValue_skipSpace]

theorem readItems_skipSpace (fuel : Nat) (cs : List Char) :
    readItems fuel (skipSpace cs) = readItems fuel cs := by
  cases fuel with
  | zero => rfl
  | succ fuel => rw [readItems, readItems, readValue_skipSpace]

theorem readMembers_skipSpace (fuel : Nat) (cs : List Char) :
    readMembers fuel (skipSpace cs) = readMembers fuel cs := by
  cases fuel with
  | zero => rfl
  | succ fuel => rw [readMembers, readMembers, skipSpace_skipSpace]

def itemChars (level : Nat) (items : List Json) : List Char :=
  (Text.joinWith ",\n" (prettyItems level items)).toList

def memberChars (level : Nat) (members : List (String × Json)) : List Char :=
  (Text.joinWith ",\n" (prettyMembers level members)).toList

theorem toList_indentation (level : Nat) : (indentation level).toList = blanks level := by
  rw [indentation, String.toList_ofList, blanks]

theorem itemChars_singleton (level : Nat) (j : Json) :
    itemChars level [j] = blanks level ++ (pretty level j).toList := by
  simp [itemChars, prettyItems, Text.joinWith, toList_indentation]

theorem itemChars_cons (level : Nat) (j k : Json) (js : List Json) :
    itemChars level (j :: k :: js) =
      blanks level ++ (pretty level j).toList ++ ',' :: '\n' :: itemChars level (k :: js) := by
  simp [itemChars, prettyItems, Text.joinWith, toList_indentation]

theorem memberChars_singleton (level : Nat) (key : String) (j : Json) :
    memberChars level [(key, j)] =
      blanks level ++ (quote key).toList ++ ':' :: ' ' :: (pretty level j).toList := by
  simp [memberChars, prettyMembers, Text.joinWith, toList_indentation]

theorem memberChars_cons (level : Nat) (key : String) (j : Json) (m : String × Json)
    (ms : List (String × Json)) :
    memberChars level ((key, j) :: m :: ms) =
      blanks level ++ (quote key).toList ++ ':' :: ' ' :: (pretty level j).toList ++
        ',' :: '\n' :: memberChars level (m :: ms) := by
  simp [memberChars, prettyMembers, Text.joinWith, toList_indentation]

theorem toList_pretty_arr (level : Nat) {items : List Json} (h : items ≠ []) :
    (pretty level (.arr items)).toList =
      '[' :: '\n' :: itemChars (level + 1) items ++ '\n' :: blanks level ++ [']'] := by
  rw [pretty, if_neg (by simpa using h)]
  simp [itemChars, toList_indentation]

theorem toList_pretty_obj (level : Nat) {members : List (String × Json)} (h : members ≠ []) :
    (pretty level (.obj members)).toList =
      '\x7b' :: '\n' :: memberChars (level + 1) members ++ '\n' :: blanks level ++ ['\x7d'] := by
  rw [pretty, if_neg (by simpa using h)]
  simp [memberChars, toList_indentation]

def ReadsBack (j : Json) : Prop :=
  ∀ (level fuel : Nat) (rest : List Char), EndsNumber rest →
    2 * (pretty level j).toList.length ≤ fuel →
    readValue fuel ((pretty level j).toList ++ rest) = some (j, rest)

theorem endsNumber_newline (cs : List Char) : EndsNumber ('\n' :: cs) :=
  endsNumber_cons (by decide) cs

theorem endsNumber_comma (cs : List Char) : EndsNumber (',' :: cs) :=
  endsNumber_cons (by decide) cs

theorem readItems_itemChars {items : List Json} (h : ∀ j ∈ items, ReadsBack j) (hne : items ≠ [])
    {level fuel : Nat} (hfuel : 2 * (itemChars level items).length + 1 ≤ fuel) (outer : Nat)
    (rest : List Char) :
    readItems fuel (itemChars level items ++ '\n' :: (blanks outer ++ ']' :: rest)) =
      some (items, rest) := by
  induction items generalizing fuel with
  | nil => exact absurd rfl hne
  | cons j js ih =>
    obtain ⟨hj, hjs⟩ := List.forall_mem_cons.1 h
    obtain ⟨fuel, rfl⟩ := Nat.exists_eq_add_of_le' (Nat.one_le_of_lt hfuel)
    cases js with
    | nil =>
      rw [itemChars_singleton, List.length_append] at hfuel
      have hread := hj level fuel ('\n' :: (blanks outer ++ ']' :: rest)) (endsNumber_newline _)
        (by omega)
      rw [itemChars_singleton, List.append_assoc, readItems, readValue_blanks, hread]
      dsimp only
      rw [← List.cons_append, skipSpace_blanks outer rfl]
      rfl
    | cons k js =>
      rw [itemChars_cons] at hfuel ⊢
      simp only [List.length_append, List.length_cons] at hfuel
      have hread := hj level fuel
        (',' :: '\n' :: (itemChars level (k :: js) ++ '\n' :: (blanks outer ++ ']' :: rest)))
        (endsNumber_comma _) (by omega)
      have htail := ih hjs (List.cons_ne_nil _ _) (show _ ≤ fuel by omega)
      simp only [List.append_assoc, List.cons_append]
      rw [readItems, readValue_blanks, hread]
      dsimp only
      rw [skipSpace, List.dropWhile_cons_of_neg (by decide)]
      change (readItems fuel _).map _ = _
      rw [← readItems_skipSpace, skipSpace_cons rfl, readItems_skipSpace, htail, Option.map_some]

def spelled (members : List (String × Json)) : List (Option (List Char) × Json) :=
  members.map fun m ↦ (some m.1.toList, m.2)

theorem ofMembers_spelled (members : List (String × Json)) :
    ofMembers (spelled members) = .obj members := by
  have hmap : (spelled members).mapM (fun m ↦ m.1.map fun cs ↦ (String.ofList cs, m.2)) =
      some members := by
    induction members with
    | nil => rfl
    | cons m ms ih =>
      rw [spelled, List.map_cons, List.mapM_cons, ← spelled, ih]
      simp
  unfold ofMembers
  rw [hmap]

/-- The first member of an object is read, and the character after it says whether others follow. -/
theorem readMembers_member {j : Json} (hj : ReadsBack j) (key : String) {level fuel : Nat}
    (hfuel : 2 * (pretty level j).toList.length ≤ fuel) {tail rest : List Char}
    (htail : EndsNumber tail) :
    (skipSpace tail = '\x7d' :: rest →
      readMembers (fuel + 1)
          (blanks level ++ (quote key).toList ++ ':' :: ' ' :: (pretty level j).toList ++ tail) =
        some ([(some key.toList, j)], rest)) ∧
    (skipSpace tail = ',' :: rest →
      readMembers (fuel + 1)
          (blanks level ++ (quote key).toList ++ ':' :: ' ' :: (pretty level j).toList ++ tail) =
        (readMembers fuel rest).map fun (ms, r) ↦ ((some key.toList, j) :: ms, r)) := by
  have hquote (cs : List Char) : skipSpace (blanks level ++ '"' :: cs) = '"' :: cs := by
    rw [skipSpace_append (List.forall_mem_cons.1 isSpace_of_mem_blanks).2]
    rfl
  have hcolon (cs : List Char) : skipSpace (':' :: cs) = ':' :: cs := rfl
  have hread : readValue fuel (' ' :: ((pretty level j).toList ++ tail)) = some (j, tail) := by
    rw [← readValue_skipSpace, skipSpace_cons rfl, readValue_skipSpace]
    exact hj level fuel tail htail hfuel
  simp only [toList_quote, List.append_assoc, List.cons_append, List.nil_append]
  rw [readMembers]
  simp only [hquote, readText_quoted, hcolon, hread]
  exact ⟨fun h ↦ by simp only [h], fun h ↦ by simp only [h]⟩

theorem readMembers_memberChars {members : List (String × Json)}
    (h : ∀ m ∈ members, ReadsBack m.2) (hne : members ≠ []) {level fuel : Nat}
    (hfuel : 2 * (memberChars level members).length + 1 ≤ fuel) (outer : Nat) (rest : List Char) :
    readMembers fuel (memberChars level members ++ '\n' :: (blanks outer ++ '\x7d' :: rest)) =
      some (spelled members, rest) := by
  induction members generalizing fuel with
  | nil => exact absurd rfl hne
  | cons m ms ih =>
    obtain ⟨key, j⟩ := m
    obtain ⟨hj, hms⟩ := List.forall_mem_cons.1 h
    obtain ⟨fuel, rfl⟩ := Nat.exists_eq_add_of_le' (Nat.one_le_of_lt hfuel)
    cases ms with
    | nil =>
      rw [memberChars_singleton] at hfuel ⊢
      simp only [List.length_append, List.length_cons] at hfuel
      refine (readMembers_member hj key (by dsimp only; omega) (endsNumber_newline _)).1 ?_
      rw [← List.cons_append, skipSpace_blanks outer rfl]
    | cons m ms =>
      rw [memberChars_cons] at hfuel ⊢
      simp only [List.length_append, List.length_cons] at hfuel
      have hmore := ih hms (List.cons_ne_nil _ _) (show _ ≤ fuel by omega)
      have hcomma (cs : List Char) : skipSpace (',' :: cs) = ',' :: cs := rfl
      rw [List.append_assoc, List.cons_append, List.cons_append,
        (readMembers_member hj key (by dsimp only; omega) (endsNumber_comma _)).2 (hcomma _),
        ← readMembers_skipSpace, skipSpace_cons rfl, readMembers_skipSpace, hmore]
      rfl

/-- A number or a sign is not the start of any other value. -/
theorem readValue_number (fuel : Nat) {c : Char} (hc : c.isDigit ∨ c = '-') (cs : List Char) :
    readValue (fuel + 1) (c :: cs) = readNumber (c :: cs) := by
  have hne : isSpace c = false ∧ c ≠ 'n' ∧ c ≠ 't' ∧ c ≠ 'f' ∧ c ≠ '"' ∧ c ≠ '[' ∧ c ≠ '\x7b' := by
    refine ⟨?_, ?_, ?_, ?_, ?_, ?_, ?_⟩
    · by_contra hspace
      rw [Bool.not_eq_false] at hspace
      unfold isSpace at hspace
      simp only [Bool.or_eq_true, decide_eq_true_eq] at hspace
      rcases hspace with ((rfl | rfl) | rfl) | rfl <;> revert hc <;> decide
    all_goals
      rintro rfl
      revert hc
      decide
  obtain ⟨hspace, hn, ht, hf, hq, hb, ho⟩ := hne
  rw [readValue, skipSpace, List.dropWhile_cons_of_neg (by simp [hspace])]
  split
  next h => exact absurd (List.cons.inj h).1 hn
  next h => exact absurd (List.cons.inj h).1 ht
  next h => exact absurd (List.cons.inj h).1 hf
  next h => exact absurd (List.cons.inj h).1 hq
  next h => exact absurd (List.cons.inj h).1 hb
  next h => exact absurd (List.cons.inj h).1 ho
  next => rfl

theorem readsBack_int (n : Int) : ReadsBack (.int n) := by
  intro level fuel rest hrest hfuel
  have hstart : ∃ c cs, (toString n).toList = c :: cs ∧ (c.isDigit ∨ c = '-') := by
    cases n with
    | ofNat m =>
      obtain ⟨c, cs, hcs⟩ := List.exists_cons_of_ne_nil (Nat.toDigits_ne_nil (n := m) (b := 10))
      refine ⟨c, cs, ?_, .inl ?_⟩
      · rw [← hcs, toList_toString_ofNat]
      · exact Nat.isDigit_of_mem_toDigits (by decide) (by decide) (hcs ▸ List.mem_cons_self)
    | negSucc m => exact ⟨'-', _, toList_toString_negSucc m, .inr rfl⟩
  obtain ⟨c, cs, hcs, hc⟩ := hstart
  rw [pretty] at hfuel ⊢
  rw [hcs, List.length_cons] at hfuel
  obtain ⟨fuel, rfl⟩ := Nat.exists_eq_add_of_le' (show 1 ≤ fuel by omega)
  rw [← readNumber_toString n hrest, hcs, List.cons_append, readValue_number fuel hc]

theorem readItems_close (fuel : Nat) (cs : List Char) : readItems fuel (']' :: cs) = none := by
  match fuel with
  | 0 | 1 | fuel + 2 => rfl

theorem readMembers_close (fuel : Nat) (cs : List Char) :
    readMembers fuel ('\x7d' :: cs) = none := by
  cases fuel with
  | zero => rfl
  | succ fuel => rfl

/-- A printed document is read back, in whatever it stands. -/
theorem Plain.readsBack {j : Json} (h : j.Plain) : ReadsBack j := by
  induction h with
  | null =>
    intro level fuel rest _ hfuel
    rw [pretty] at hfuel ⊢
    obtain ⟨fuel, rfl⟩ := Nat.exists_eq_add_of_le' (Nat.le_trans (by decide : 1 ≤ _) hfuel)
    rfl
  | bool b =>
    intro level fuel rest _ hfuel
    cases b with
    | true =>
      rw [pretty] at hfuel ⊢
      obtain ⟨fuel, rfl⟩ := Nat.exists_eq_add_of_le' (Nat.le_trans (by decide : 1 ≤ _) hfuel)
      rfl
    | false =>
      rw [pretty] at hfuel ⊢
      obtain ⟨fuel, rfl⟩ := Nat.exists_eq_add_of_le' (Nat.le_trans (by decide : 1 ≤ _) hfuel)
      rfl
  | int n => exact readsBack_int n
  | str s =>
    intro level fuel rest _ hfuel
    rw [pretty, toList_quote] at hfuel ⊢
    rw [List.length_cons] at hfuel
    obtain ⟨fuel, rfl⟩ := Nat.exists_eq_add_of_le' (show 1 ≤ fuel by omega)
    have hquote (cs : List Char) : skipSpace ('"' :: cs) = '"' :: cs := rfl
    simp only [List.cons_append, List.append_assoc, List.nil_append]
    rw [readValue]
    simp only [hquote, readText_quoted, Option.map_some, ofText, String.ofList_toList]
  | @arr items _ ih =>
    intro level fuel rest _ hfuel
    rcases eq_or_ne items [] with rfl | hne
    · rw [pretty, if_pos List.isEmpty_nil] at hfuel ⊢
      obtain ⟨fuel, rfl⟩ := Nat.exists_eq_add_of_le' (Nat.le_trans (by decide : 1 ≤ _) hfuel)
      rfl
    · rw [toList_pretty_arr level hne] at hfuel ⊢
      simp only [List.length_append, List.length_cons, List.cons_append] at hfuel
      obtain ⟨fuel, rfl⟩ := Nat.exists_eq_add_of_le' (show 1 ≤ fuel by omega)
      have henough : 2 * (itemChars (level + 1) items).length + 1 ≤ fuel := by omega
      have hitems := readItems_itemChars ih hne henough level rest
      have hbracket (cs : List Char) : skipSpace ('[' :: cs) = '[' :: cs := rfl
      rw [← readItems_skipSpace, ← skipSpace_cons (c := '\n') rfl] at hitems
      simp only [List.append_assoc, List.cons_append, List.nil_append] at hitems ⊢
      rw [readValue]
      simp only [hbracket]
      split
      next r hr =>
        rw [hr, readItems_close] at hitems
        cases hitems
      next => rw [hitems, Option.map_some]
  | @obj members _ ih =>
    intro level fuel rest _ hfuel
    rcases eq_or_ne members [] with rfl | hne
    · rw [pretty, if_pos List.isEmpty_nil] at hfuel ⊢
      obtain ⟨fuel, rfl⟩ := Nat.exists_eq_add_of_le' (Nat.le_trans (by decide : 1 ≤ _) hfuel)
      rfl
    · rw [toList_pretty_obj level hne] at hfuel ⊢
      simp only [List.length_append, List.length_cons, List.cons_append] at hfuel
      obtain ⟨fuel, rfl⟩ := Nat.exists_eq_add_of_le' (show 1 ≤ fuel by omega)
      have henough : 2 * (memberChars (level + 1) members).length + 1 ≤ fuel := by omega
      have hmembers := readMembers_memberChars ih hne henough level rest
      have hbrace (cs : List Char) : skipSpace ('\x7b' :: cs) = '\x7b' :: cs := rfl
      rw [← readMembers_skipSpace, ← skipSpace_cons (c := '\n') rfl] at hmembers
      simp only [List.append_assoc, List.cons_append, List.nil_append] at hmembers ⊢
      rw [readValue]
      simp only [hbrace]
      split
      next r hr =>
        rw [hr, readMembers_close] at hmembers
        cases hmembers
      next => rw [hmembers, Option.map_some, ofMembers_spelled]

/-- The text of a document is a text of that document. -/
theorem Plain.parse_pretty {j : Json} (h : j.Plain) : parse (j.pretty 0) = some j := by
  have hread := h.readsBack 0 (2 * (j.pretty 0).toList.length + 2) [] nofun (Nat.le_add_right _ _)
  rw [List.append_nil] at hread
  unfold parse
  dsimp only
  rw [hread]
  rfl

end Fabric.Json
