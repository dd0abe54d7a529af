import Fabric.Timing.Report
import Mathlib.Data.List.TakeWhile

namespace Fabric

namespace Text

theorem splitChars_eq_splitOn (sep : Char) (cs : List Char) :
    splitChars sep cs = cs.splitOn sep := by
  induction cs with
  | nil => rfl
  | cons c cs ih =>
    rw [splitChars, ih, List.splitOn_cons_eq_if_modifyHead]
    simp only [beq_iff_eq]
    split
    · rfl
    · cases hpieces : cs.splitOn sep with
      | nil => exact absurd hpieces (List.splitOn_ne_nil sep cs)
      | cons piece rest => rfl

theorem length_splitOn (sep : Char) (cs : List Char) :
    (cs.splitOn sep).length = cs.count sep + 1 := by
  induction cs with
  | nil => rfl
  | cons c cs ih =>
    rw [List.splitOn_cons_eq_if_modifyHead]
    by_cases hc : c = sep
    · simp [hc, ih]
    · simp [hc, ih]

theorem trimChars_append_blank {c : Char} (hc : isBlank c) (cs : List Char) :
    trimChars (cs ++ [c]) = trimChars cs := by
  unfold trimChars
  rw [List.dropWhile_append]
  split
  next hempty =>
    rw [List.isEmpty_iff] at hempty
    simp [hempty, hc]
  next => simp [hc]

end Text

namespace TimingReport

variable {m n : Nat} {r s t : TimingReport}

theorem content_dropReturn (cs : List Char) :
    content (String.ofList (Text.dropReturn cs)) = content (String.ofList cs) := by
  unfold Text.dropReturn
  split
  next hlast =>
    obtain ⟨ds, rfl⟩ := List.getLast?_eq_some_iff.1 hlast
    rw [List.dropLast_concat]
    simp only [content, String.toList_ofList, List.takeWhile_append]
    split
    next hall =>
      rw [(List.takeWhile_prefix _).eq_of_length hall]
      exact congrArg String.ofList (Text.trimChars_append_blank rfl ds).symm
    next => rfl
  next => rfl

theorem readLine_congr {line line' : String} (h : content line = content line') :
    readLine line = readLine line' := by
  simp only [readLine, h]

theorem readLines_linesOfPieces (pieces : List (List Char)) :
    readLines n r ((Text.linesOfPieces pieces).map String.ofList) =
      readLines n r (pieces.map String.ofList) := by
  fun_induction Text.linesOfPieces pieces generalizing n r with
  | case1 => rfl
  | case2 last hempty =>
    obtain rfl := List.isEmpty_iff.1 hempty
    rfl
  | case3 last hempty => rfl
  | case4 piece rest hne ih =>
    simp only [List.map_cons, readLines, readLine_congr (content_dropReturn piece), ih]

theorem parse_eq (text : String) :
    parse text = readLines 1 empty ((text.toList.splitOn '\n').map String.ofList) := by
  rw [parse, Text.lines, readLines_linesOfPieces, Text.splitChars_eq_splitOn]

theorem readLines_append (ls ls' : List String) :
    readLines n r (ls ++ ls') =
      (readLines n r ls).bind fun s ↦ readLines (n + ls.length) s ls' := by
  induction ls generalizing n r with
  | nil => rfl
  | cons line ls ih =>
    rw [List.cons_append, readLines, readLines, List.length_cons, Nat.add_comm ls.length,
      ← Nat.add_assoc]
    split
    next => rfl
    next => exact ih
    next => exact ih

theorem get?_insert (r : TimingReport) (key k : TimingKey) (ns : Binary64) :
    (r.insert key ns).get? k = if k = key then some ns else r.get? k := by
  obtain ⟨entries⟩ := r
  unfold insert get?
  dsimp only
  induction entries with
  | nil =>
    by_cases h : k = key
    · simp [insertEntry, h]
    · simp [insertEntry, h, Ne.symm h]
  | cons e entries ih =>
    obtain ⟨k', l⟩ := e
    unfold insertEntry
    split
    next hkey => grind
    next hkey => grind

def Over (r s t : TimingReport) : Prop :=
  ∀ key, t.get? key = (s.get? key).or (r.get? key)

theorem over_empty (r : TimingReport) : Over r empty r :=
  fun _ ↦ rfl

theorem Over.insert (h : Over r s t) (key : TimingKey) (ns : Binary64) :
    Over r (s.insert key ns) (t.insert key ns) := by
  intro k
  rw [get?_insert, get?_insert]
  split
  next => rfl
  next => exact h k

/-- Lines are read in the same way wherever they stand and whatever was read before. -/
theorem readLines_over (h : Over r s t) (ls : List String) :
    match readLines m s ls with
    | .ok s' => ∃ t', readLines n t ls = .ok t' ∧ Over r s' t'
    | .error e => ∃ k reason, e = .malformed (m + k) reason ∧
        readLines n t ls = .error (.malformed (n + k) reason) := by
  induction ls generalizing m n s t with
  | nil => exact ⟨t, rfl, h⟩
  | cons line ls ih =>
    have hrest {s t : TimingReport} (h : Over r s t) :
        match readLines (m + 1) s ls with
        | .ok s' => ∃ t', readLines (n + 1) t ls = .ok t' ∧ Over r s' t'
        | .error e => ∃ k reason, e = .malformed (m + k) reason ∧
            readLines (n + 1) t ls = .error (.malformed (n + k) reason) := by
      have hread := @ih (m + 1) (n + 1) s t h
      split at hread
      next => exact hread
      next =>
        obtain ⟨k, reason, he, herror⟩ := hread
        refine ⟨k + 1, reason, ?_, ?_⟩
        · rw [he, Nat.add_right_comm, Nat.add_assoc]
        · rw [herror, Nat.add_right_comm, Nat.add_assoc]
    simp only [readLines]
    cases readLine line with
    | error reason => exact ⟨0, reason, rfl, rfl⟩
    | ok entry =>
      cases entry with
      | none => exact hrest h
      | some e => exact hrest (h.insert e.1 e.2)

theorem latency_eq (r : TimingReport) (operator : Operator) (width : UInt16) (signed : Bool)
    (constant : Option Int64) :
    r.latency operator width signed constant =
      match (constant.bind fun c ↦ r.get? ⟨operator, width, signed, some c⟩).or
        (r.get? ⟨operator, width, signed, none⟩) with
      | some ns => .ok ns
      | none => .error (.missingEntry operator.name width signed) := by
  rw [Option.or_eq_orElse]
  rfl

/-- The report of two texts with a line feed between them: a line that is wrong in the first text,
or else in the second, is reported, with its number in the whole; otherwise an entry of the second
text counts before one of the first, and an entry for a constant operand before one for any
operand, whichever text gives it. -/
theorem parse_append (a b : String) :
    match parse a, parse b with
    | .error e, _ => parse (a ++ "\n" ++ b) = .error e
    | .ok _, .error e => ∃ n reason, e = .malformed n reason ∧
        parse (a ++ "\n" ++ b) = .error (.malformed (n + 1 + a.toList.count '\n') reason)
    | .ok r, .ok s => ∃ t, parse (a ++ "\n" ++ b) = .ok t ∧
        (∀ key, t.get? key = (s.get? key).or (r.get? key)) ∧
        ∀ operator width signed constant, t.latency operator width signed constant =
          match (constant.bind fun c ↦ (s.get? ⟨operator, width, signed, some c⟩).or
              (r.get? ⟨operator, width, signed, some c⟩)).or
            ((s.get? ⟨operator, width, signed, none⟩).or
              (r.get? ⟨operator, width, signed, none⟩)) with
          | some ns => .ok ns
          | none => .error (.missingEntry operator.name width signed) := by
  have hlength : ((a.toList.splitOn '\n').map String.ofList).length = a.toList.count '\n' + 1 := by
    rw [List.length_map, Text.length_splitOn]
  have hparse : parse (a ++ "\n" ++ b) = (parse a).bind fun r ↦
      readLines (1 + (a.toList.count '\n' + 1)) r ((b.toList.splitOn '\n').map String.ofList) := by
    have hchars : (a ++ "\n" ++ b).toList = a.toList ++ '\n' :: b.toList := by simp
    rw [parse_eq, hchars, List.splitOn_append_cons_self, List.map_append, readLines_append, hlength,
      ← parse_eq]
  rw [hparse]
  cases hfirst : parse a with
  | error e => rfl
  | ok r =>
    have hsecond := readLines_over (m := 1) (n := 1 + (a.toList.count '\n' + 1)) (over_empty r)
      ((b.toList.splitOn '\n').map String.ofList)
    rw [← parse_eq] at hsecond
    cases hb : parse b with
    | error e =>
      rw [hb] at hsecond
      obtain ⟨k, reason, he, herror⟩ := hsecond
      refine ⟨1 + k, reason, he, ?_⟩
      have hnumber : 1 + (a.toList.count '\n' + 1) + k = 1 + k + 1 + a.toList.count '\n' := by
        omega
      rw [← hnumber]
      exact herror
    | ok s =>
      rw [hb] at hsecond
      obtain ⟨t, ht, hover⟩ := hsecond
      unfold Over at hover
      refine ⟨t, ht, hover, ?_⟩
      intro operator width signed constant
      have hconstant : (constant.bind fun c ↦ t.get? ⟨operator, width, signed, some c⟩) =
          constant.bind fun c ↦ (s.get? ⟨operator, width, signed, some c⟩).or
            (r.get? ⟨operator, width, signed, some c⟩) := by
        simp only [hover]
      rw [latency_eq, hconstant, hover]

end TimingReport

end Fabric
