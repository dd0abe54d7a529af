import Fabric.Proofs.Text.Separation
import Fabric.Vhdl.Writer
import Mathlib.Data.List.Chain

namespace Fabric

namespace Text

/-- No backslash, and no pair of the given characters side by side; nor does the text end with the
first character of such a pair, so that no text after it completes one. -/
structure Avoids (pairs : List (Char × Char)) (s : String) : Prop where
  backslash : '\\' ∉ s.toList
  apart : s.toList.IsChain fun a b ↦ (a, b) ∉ pairs
  ends : ∀ c ∈ s.toList.getLast?, ∀ q ∈ pairs, q.1 ≠ c

abbrev Clean (s : String) : Prop := Avoids [('-', '-')] s

abbrev Plain (s : String) : Prop := Avoids [('-', '-'), (':', ' ')] s

variable {pairs : List (Char × Char)} {s t : String}

instance : Decidable (Avoids pairs s) :=
  decidable_of_iff
    ('\\' ∉ s.toList ∧ (s.toList.IsChain fun a b ↦ (a, b) ∉ pairs) ∧
      (s.toList.getLast?.all fun c ↦ pairs.all fun q ↦ q.1 ≠ c) = true)
    ⟨fun h ↦ ⟨h.1, h.2.1, by simpa [Option.all_eq_true] using h.2.2⟩,
      fun h ↦ ⟨h.1, h.2, by simpa [Option.all_eq_true] using h.3⟩⟩

theorem Avoids.append (hs : Avoids pairs s) (ht : Avoids pairs t) : Avoids pairs (s ++ t) where
  backslash := by
    rw [String.toList_append, List.mem_append]
    exact not_or.2 ⟨hs.backslash, ht.backslash⟩
  apart := by
    rw [String.toList_append, List.isChain_append]
    exact ⟨hs.apart, ht.apart, fun c hc d _ hmem ↦ hs.ends c hc (c, d) hmem rfl⟩
  ends := by
    intro c hc
    rw [String.toList_append, List.getLast?_append, Option.mem_def, Option.or_eq_some_iff] at hc
    rcases hc with hc | ⟨-, hc⟩
    · exact ht.ends c hc
    · exact hs.ends c hc

theorem Plain.clean (h : Plain s) : Clean s where
  backslash := h.backslash
  apart := h.apart.imp fun _ _ hab hmem ↦ hab (List.mem_cons.2 (.inl (List.mem_singleton.1 hmem)))
  ends c hc q hq := h.ends c hc q (List.mem_cons.2 (.inl (List.mem_singleton.1 hq)))

def IsWord (s : String) : Prop :=
  ∀ c ∈ s.toList, c.isAlphanum ∨ c = '_'

instance : Decidable (IsWord s) :=
  decidable_of_iff ((s.toList.all fun c ↦ c.isAlphanum ∨ c = '_') = true) (by simp [IsWord])

namespace IsWord

theorem append (hs : IsWord s) (ht : IsWord t) : IsWord (s ++ t) := by
  intro c hc
  rw [String.toList_append, List.mem_append] at hc
  exact hc.elim (hs c) (ht c)

theorem toString (n : Nat) : IsWord (toString n) := fun c hc ↦ by
  have hdigit := isDigit_of_mem_toString hc
  exact .inl (by simp [Char.isAlphanum, hdigit])

theorem not_mem (hs : IsWord s) {c : Char} (hc : ¬(c.isAlphanum ∨ c = '_')) : c ∉ s.toList :=
  fun h ↦ hc (hs c h)

theorem plain (hs : IsWord s) : Plain s where
  backslash := hs.not_mem (by decide)
  apart := by
    have hdash : '-' ∉ s.toList := hs.not_mem (by decide)
    have hcolon : ':' ∉ s.toList := hs.not_mem (by decide)
    refine List.Pairwise.isChain (List.pairwise_of_forall_mem_list fun a ha b _ hmem ↦ ?_)
    rw [List.mem_pair, Prod.mk.injEq, Prod.mk.injEq] at hmem
    rcases hmem with ⟨rfl, -⟩ | ⟨rfl, -⟩
    · exact hdash ha
    · exact hcolon ha
  ends := by
    intro c hc q hq
    have hmem : c ∈ s.toList := List.mem_of_getLast? hc
    rw [List.mem_pair] at hq
    rintro rfl
    rcases hq with rfl | rfl
    · exact hs.not_mem (by decide) hmem
    · exact hs.not_mem (by decide) hmem

end IsWord

theorem plain_joinWith {words : List String} (h : ∀ x ∈ words, IsWord x) :
    Plain (joinWith ", " words) := by
  induction words with
  | nil => exact (by decide : Plain "")
  | cons name words ih =>
    rw [List.forall_mem_cons] at h
    cases words with
    | nil => exact h.1.plain
    | cons => exact .append (.append h.1.plain (by decide)) (ih h.2)

theorem plain_toString (n : Nat) : Plain (toString n) :=
  (IsWord.toString n).plain

theorem head?_append {c : Char} (hs : s.toList.head? = some c) :
    (s ++ t).toList.head? = some c := by
  rw [String.toList_append, List.head?_append, hs, Option.some_or]

theorem head?_append_ne {c : Char} (hs : s.toList.head? ≠ some c) (ht : t.toList.head? ≠ some c) :
    (s ++ t).toList.head? ≠ some c := by
  rw [String.toList_append, List.head?_append, Ne, Option.or_eq_some_iff]
  exact not_or.2 ⟨hs, fun h ↦ ht h.2⟩

/-- A single dash begins no comment. -/
theorem Plain.dash (hs : Plain s) (hne : s ≠ "") (hhead : s.toList.head? ≠ some '-') :
    Plain ("-" ++ s) where
  backslash := by simpa using hs.backslash
  apart := by
    rw [String.toList_append]
    refine .cons hs.apart fun c hc hmem ↦ ?_
    rw [List.mem_pair, Prod.mk.injEq, Prod.mk.injEq] at hmem
    rcases hmem with ⟨-, rfl⟩ | ⟨hcolon, -⟩
    · exact hhead hc
    · exact absurd hcolon (by decide)
  ends := by
    have hlist : s.toList ≠ [] := mt String.toList_eq_nil_iff.1 hne
    intro c hc
    rw [String.toList_append, List.getLast?_append_of_ne_nil _ hlist] at hc
    exact hs.ends c hc

theorem plain_toString_int (i : Int) : Plain (toString i) := by
  cases i with
  | ofNat n => exact plain_toString n
  | negSucc n =>
    refine (plain_toString (n + 1)).dash Nat.repr_ne_empty fun hhead ↦ ?_
    exact (IsWord.toString (n + 1)).not_mem (by decide) (List.mem_of_head? hhead)

end Text

namespace Vhdl

open Text

namespace Names

variable {n : Names}

theorem isWord_tag (n : Names) (member : String) : IsWord (n.tag member) := by
  unfold tag
  split
  next position _ => exact .append (by decide) (.toString position)
  next =>
    refine .append (by decide) fun c hc ↦ ?_
    rw [plain, String.toList_ofList, List.mem_map] at hc
    obtain ⟨d, -, rfl⟩ := hc
    split
    next hd => exact .inl hd
    next => exact .inr rfl

theorem isWord_compactPin (parameters : List ComponentPin) (pin : PinKind) :
    IsWord (compactPin parameters pin) := by
  cases pin with
  | started => exact (by decide : IsWord "start")
  | finished => exact (by decide : IsWord "done")
  | parameter name => exact .append (by decide) (.toString _)
  | result => exact (by decide : IsWord "ret")

variable (hn : n.isVerbose = false)

include hn

theorem isWord_instanceSignal (member : String) (number : Nat) (pin : PinKind) :
    IsWord (n.instanceSignal member number pin) := by
  rw [instanceSignal, hn, if_neg Bool.false_ne_true]
  exact .append (.append (.append (.append (n.isWord_tag member) (by decide)) (.toString number))
    (by decide)) (isWord_compactPin _ pin)

theorem isWord_slotSignal (target caller : String) (callerInstance slot : Nat) (pin : PinKind) :
    IsWord (n.slotSignal target caller callerInstance slot pin) := by
  rw [slotSignal, hn, if_neg Bool.false_ne_true]
  have hcaller : IsWord (if (n.find? caller).isSome then n.tag caller else "ext") := by
    split
    · exact n.isWord_tag caller
    · decide
  exact .append (.append (.append (.append (.append (.append (.append (.append (n.isWord_tag target)
    (by decide)) hcaller) (by decide)) (.toString _)) (by decide)) (.toString _)) (by decide))
    (isWord_compactPin _ pin)

theorem isWord_entryPin (member : String) (memberId : Nat) (pin : PinKind) :
    IsWord (n.entryPin member memberId pin) := by
  rw [entryPin, hn, if_neg Bool.false_ne_true]
  exact .append (.append (.append (by decide) (.toString memberId)) (by decide))
    (isWord_compactPin _ pin)

theorem isWord_state (id : StateId) : IsWord (n.state id) := by
  rw [state, hn, if_neg Bool.false_ne_true]
  exact .append (by decide) (.toString _)

theorem isWord_variableName (name : String) (position : Nat) :
    IsWord (n.variableName name position) := by
  rw [variableName, hn, if_neg Bool.false_ne_true]
  exact .append (by decide) (.toString position)

omit hn in
theorem isWord_processLabel (n : Names) (member : String) (number : Nat) :
    IsWord (n.processLabel member number) :=
  .append (.append (n.isWord_tag member) (by decide)) (.toString number)

omit hn in
theorem isWord_proxyLabel (n : Names) (target : String) : IsWord (n.proxyLabel target) :=
  .append (n.isWord_tag target) (by decide)

end Names

theorem isWord_arrayTypeName (t : HwType) : IsWord (arrayTypeName t) := by
  induction t with
  | boolean => decide
  | signed width | unsigned width => exact .append (by decide) (.toString _)
  | array element length ih =>
    exact .append (.append (.append (by decide) ih) (by decide)) (.toString _)

theorem plain_typeText (t : HwType) : Plain (typeText t) := by
  cases t with
  | boolean => decide
  | signed width | unsigned width =>
    exact .append (.append (by decide) (plain_toString _)) (by decide)
  | array element length => exact (isWord_arrayTypeName _).plain

namespace Code

def names : Code → List String
  | .name text => [text]
  | .others c | .negate c | .complement c | .resize c _ | .asSigned c | .asUnsigned c
  | .isNonzero c => c.names
  | .product a b | .operation _ a b | .shiftLeft a b | .shiftRight a b | .select a b =>
    a.names ++ b.names
  | _ => []

theorem plain_symbol (op : HwBinaryOp) : Plain (symbol op ++ " ") := by
  cases op <;> decide

theorem plain_bitText (bits : List Bool) : Plain (bitText bits) := by
  apply IsWord.plain
  intro c hc
  rw [bitText, String.toList_ofList, List.mem_map] at hc
  obtain ⟨b, -, rfl⟩ := hc
  cases b <;> decide

theorem head?_print {c : Code} (h : ∀ x ∈ c.names, IsWord x) : c.print.toList.head? ≠ some '-' := by
  induction c with
  | name text =>
    intro hhead
    exact (h text (List.mem_singleton.2 rfl)).not_mem (by decide) (List.mem_of_head? hhead)
  | product a b iha ihb =>
    obtain ⟨ha, hb⟩ := List.forall_mem_append.1 h
    exact head?_append_ne (head?_append_ne (iha ha) (by decide)) (ihb hb)
  | select a i iha ihi =>
    obtain ⟨ha, hi⟩ := List.forall_mem_append.1 h
    exact head?_append_ne (head?_append_ne (head?_append_ne (iha ha) (by decide)) (ihi hi))
      (by decide)
  | bool value => cases value <;> decide
  | zeroBits => exact (by decide : "(others => '0')".toList.head? ≠ some '-')
  | signedBits | unsignedBits | others | negate | complement | asSigned | asUnsigned | isNonzero =>
    exact ne_of_eq_of_ne (head?_append (head?_append rfl)) (by decide)
  | toSigned | toUnsigned | shiftLeft | shiftRight | resize =>
    exact ne_of_eq_of_ne (head?_append (head?_append (head?_append (head?_append rfl))))
      (by decide)
  | operation =>
    exact ne_of_eq_of_ne (head?_append (head?_append (head?_append (head?_append (head?_append
      (head?_append rfl)))))) (by decide)

theorem plain_print {c : Code} (h : ∀ x ∈ c.names, IsWord x) : Plain c.print := by
  induction c with
  | name text => exact (h text (List.mem_singleton.2 rfl)).plain
  | bool value => cases value <;> decide
  | toSigned value width | toUnsigned value width =>
    exact .append (.append (.append (.append (by decide) (plain_toString_int value)) (by decide))
      (plain_toString width)) (by decide)
  | signedBits bits | unsignedBits bits =>
    exact .append (.append (by decide) (plain_bitText bits)) (by decide)
  | zeroBits => exact (by decide : Plain "(others => '0')")
  | others c ih | complement c ih | asSigned c ih | asUnsigned c ih | isNonzero c ih =>
    exact .append (.append (by decide) (ih h)) (by decide)
  | negate c ih =>
    have hrest : Plain (c.print ++ ")") := (ih h).append (by decide)
    have hdash : Plain ("-" ++ (c.print ++ ")")) := by
      apply hrest.dash
      · simp
      · exact head?_append_ne (head?_print (c := c) h) (by decide)
    have hsplit : (negate c).print = "(" ++ ("-" ++ (c.print ++ ")")) := by
      rw [← String.append_assoc, ← String.append_assoc]
      rfl
    rw [hsplit]
    exact .append (by decide) hdash
  | product a b iha ihb =>
    obtain ⟨ha, hb⟩ := List.forall_mem_append.1 h
    exact .append (.append (iha ha) (by decide)) (ihb hb)
  | operation op a b iha ihb =>
    obtain ⟨ha, hb⟩ := List.forall_mem_append.1 h
    have hleft : Plain ("(" ++ a.print ++ " ") := .append (.append (by decide) (iha ha)) (by decide)
    have hright : Plain (b.print ++ ")") := .append (ihb hb) (by decide)
    have hsplit : (operation op a b).print =
        "(" ++ a.print ++ " " ++ (symbol op ++ " ") ++ (b.print ++ ")") := by
      rw [← String.append_assoc, ← String.append_assoc]
      rfl
    rw [hsplit]
    exact (hleft.append (plain_symbol op)).append hright
  | shiftLeft a b iha ihb | shiftRight a b iha ihb =>
    obtain ⟨ha, hb⟩ := List.forall_mem_append.1 h
    exact .append (.append (.append (.append (by decide) (iha ha)) (by decide)) (ihb hb))
      (by decide)
  | resize c width ih =>
    exact .append (.append (.append (.append (by decide) (ih h)) (by decide))
      (plain_toString width)) (by decide)
  | select a i iha ihi =>
    obtain ⟨ha, hi⟩ := List.forall_mem_append.1 h
    exact .append (.append (.append (iha ha) (by decide)) (ihi hi)) (by decide)

end Code

def nameIn : List (List Char) → Option (List Char)
  | [name] | [name, []] => some name
  | [keyword, name, []] => if keyword = "signal".toList then some name else none
  | _ => none

namespace Step

/-- The port, the signal or the process that a line declares: what stands before the first colon, if
the colon begins no assignment. -/
def declared? : Step → Option String
  | .line text =>
    if [':', ' '] <+: text.toList.dropWhile (· ≠ ':') then
      (nameIn ((text.toList.takeWhile (· ≠ ':')).splitOn ' ')).map String.ofList
    else none
  | _ => none

def IsClean : Step → Prop
  | .line text => Clean text
  | .comment _ => False
  | _ => True

def IsSilent (t : Step) : Prop :=
  t.IsClean ∧ t.declared? = none

end Step

theorem clean_indentation (depth : Nat) : Clean (indentation depth) where
  backslash := by simp [indentation]
  apart := by
    rw [indentation, String.toList_ofList]
    exact List.isChain_replicate_of_rel _ (by decide)
  ends := by
    intro c hc
    rw [indentation, String.toList_ofList] at hc
    obtain rfl := List.eq_of_mem_replicate (List.mem_of_getLast? hc)
    decide

theorem clean_lineAt {text : String} (h : Clean text) (depth : Nat) : Clean (lineAt depth text) := by
  unfold lineAt
  split
  · decide
  · exact ((clean_indentation depth).append h).append (by decide)

theorem clean_layoutLines {ts : List Step} (h : ∀ t ∈ ts, t.IsClean) (depth : Nat) :
    ∀ text ∈ layoutLines depth ts, Clean text := by
  induction ts generalizing depth with
  | nil => nofun
  | cons t ts ih =>
    obtain ⟨ht, hts⟩ := List.forall_mem_cons.1 h
    cases t with
    | line text => exact List.forall_mem_cons.2 ⟨clean_lineAt ht depth, ih hts depth⟩
    | comment text => exact ht.elim
    | blank => exact List.forall_mem_cons.2 ⟨by decide, ih hts depth⟩
    | indent => exact ih hts (depth + 1)
    | dedent => exact ih hts (depth - 1)

theorem clean_join {texts : List String} (h : ∀ text ∈ texts, Clean text) :
    Clean (String.join texts) := by
  induction texts with
  | nil => decide
  | cons text rest ih =>
    obtain ⟨htext, hrest⟩ := List.forall_mem_cons.1 h
    rw [String.join_cons]
    exact htext.append (ih hrest)

theorem clean_layout {ts : List Step} (h : ∀ t ∈ ts, t.IsClean) : Clean (layout ts) :=
  clean_join (clean_layoutLines h 0)

theorem not_infix_of_clean {text : String} (h : Clean text) : ¬['-', '-'] <:+: text.toList := by
  rintro ⟨before, after, htext⟩
  have hsplit : text.toList = before ++ '-' :: '-' :: after := by
    rw [← htext, List.append_assoc]
    rfl
  have hapart := List.isChain_iff_forall_rel_of_append_cons_cons.1 h.apart hsplit
  exact hapart (List.mem_singleton.2 rfl)

def Silent (steps : List Step) : Prop :=
  ∀ t ∈ steps, t.IsSilent

structure Declares (steps : List Step) (names : List String) : Prop where
  clean : ∀ t ∈ steps, t.IsClean
  names_eq : steps.filterMap Step.declared? = names

variable {a b : List Step} {text name rest : String} {names names' : List String}

@[simp]
theorem silent_nil : Silent [] := nofun

@[simp]
theorem silent_append : Silent (a ++ b) ↔ Silent a ∧ Silent b :=
  List.forall_mem_append

@[simp]
theorem silent_cons {t : Step} : Silent (t :: a) ↔ t.IsSilent ∧ Silent a :=
  List.forall_mem_cons

theorem isSilent_ends : Step.indent.IsSilent ∧ Step.blank.IsSilent ∧ Step.dedent.IsSilent := by
  simp [Step.IsSilent, Step.IsClean, Step.declared?]

@[simp]
theorem silent_indented : Silent (indented a) ↔ Silent a := by
  simp [indented, isSilent_ends]

@[simp]
theorem silent_ite {p : Prop} [Decidable p] :
    Silent (if p then a else b) ↔ (p → Silent a) ∧ (¬p → Silent b) := by
  split <;> simp_all

theorem silent_flatMap {α : Type} {f : α → List Step} {as : List α} (h : ∀ x ∈ as, Silent (f x)) :
    Silent (as.flatMap f) :=
  List.forall_mem_flatMap.2 h

theorem Silent.declares (h : Silent a) : Declares a [] where
  clean t ht := (h t ht).1
  names_eq := List.filterMap_eq_nil_iff.2 fun t ht ↦ (h t ht).2

namespace Declares

theorem append (ha : Declares a names) (hb : Declares b names') :
    Declares (a ++ b) (names ++ names') where
  clean := List.forall_mem_append.2 ⟨ha.clean, hb.clean⟩
  names_eq := by rw [List.filterMap_append, ha.names_eq, hb.names_eq]

theorem flatMap {α : Type} {f : α → List Step} {g : α → List String} {as : List α}
    (h : ∀ x ∈ as, Declares (f x) (g x)) : Declares (as.flatMap f) (as.flatMap g) := by
  induction as with
  | nil => exact ⟨nofun, rfl⟩
  | cons x as ih =>
    rw [List.forall_mem_cons] at h
    exact h.1.append (ih h.2)

theorem indented (h : Declares a names) : Declares (indented a) names := by
  have hindent : Silent [.indent] := by simp [isSilent_ends]
  have hdedent : Silent [.dedent] := by simp [isSilent_ends]
  simpa [Vhdl.indented] using (hindent.declares.append h).append hdedent.declares

theorem map {α : Type} {f : α → Step} {g : α → String} {as : List α}
    (h : ∀ x ∈ as, Declares [f x] [g x]) : Declares (as.map f) (as.map g) := by
  rw [List.map_eq_flatMap, List.map_eq_flatMap]
  exact flatMap h

/-- Nothing after the first step declares a name. -/
theorem cons {t : Step} (ht : Declares [t] names) (ha : Silent a) : Declares (t :: a) names := by
  simpa using ht.append ha.declares

end Declares

theorem declared?_line (before after : List Char) (hbefore : ':' ∉ before)
    (htext : text.toList = before ++ ':' :: ' ' :: after) :
    (Step.line text).declared? = (nameIn (before.splitOn ' ')).map String.ofList := by
  have hpos : ∀ c ∈ before, decide (c ≠ ':') = true := by
    intro c hc
    exact decide_eq_true (ne_of_mem_of_not_mem hc hbefore)
  rw [Step.declared?, htext, List.takeWhile_append_of_pos hpos, List.dropWhile_append_of_pos hpos]
  simp

theorem isSilent_line (h : Plain text) : (Step.line text).IsSilent := by
  refine ⟨h.clean, if_neg ?_⟩
  rintro ⟨after, hafter⟩
  have hchain := h.apart
  rw [← List.takeWhile_append_dropWhile (p := (· ≠ ':')) (l := text.toList), ← hafter] at hchain
  simp at hchain

theorem declares_line (before after : List Char) (hclean : Clean text) (hbefore : ':' ∉ before)
    (htext : text.toList = before ++ ':' :: ' ' :: after)
    (hname : nameIn (before.splitOn ' ') = some name.toList) : Declares [.line text] [name] where
  clean := List.forall_mem_singleton.2 hclean
  names_eq := by simp [declared?_line before after hbefore htext, hname]

theorem splitOn_word (hname : IsWord name) : name.toList.splitOn ' ' = [name.toList] :=
  List.splitOn_eq_singleton (hname.not_mem (by decide))

theorem declares_signal (hname : IsWord name) (hrest : Clean rest) :
    Declares [.line ("signal " ++ name ++ " : " ++ rest)] [name] := by
  have hclean : Clean ("signal " ++ name ++ " : ") :=
    .append (.append (by decide) hname.plain.clean) (by decide)
  have hcolon : ':' ∉ name.toList := hname.not_mem (by decide)
  apply declares_line ("signal".toList ++ ' ' :: (name.toList ++ ' ' :: [])) rest.toList
    (hclean.append hrest)
  · simpa using hcolon
  · simp
  · rw [List.splitOn_append_cons_self, List.splitOn_append_cons_self, splitOn_word hname,
      splitOn_word (by decide), List.splitOn_nil]
    simp [nameIn]

theorem declares_port (hname : IsWord name) (hrest : Clean rest) :
    Declares [.line (name ++ " : " ++ rest)] [name] := by
  have hcolon : ':' ∉ name.toList := hname.not_mem (by decide)
  apply declares_line (name.toList ++ ' ' :: []) rest.toList
    (.append (.append hname.plain.clean (by decide)) hrest)
  · simpa using hcolon
  · simp
  · rw [List.splitOn_append_cons_self, splitOn_word hname]
    rfl

theorem declares_label (hname : IsWord name) :
    Declares [.line (name ++ ": process (Clock)")] [name] := by
  apply declares_line name.toList "process (Clock)".toList (.append hname.plain.clean (by decide))
    (hname.not_mem (by decide))
  · simp
  · rw [splitOn_word hname]
    rfl

theorem isSilent_variable (name rest : String) (hname : IsWord name) (hrest : Clean rest) :
    (Step.line ("variable " ++ name ++ " : " ++ rest)).IsSilent := by
  have hclean : Clean ("variable " ++ name ++ " : ") :=
    .append (.append (by decide) hname.plain.clean) (by decide)
  have hcolon : ':' ∉ name.toList := hname.not_mem (by decide)
  refine ⟨hclean.append hrest, ?_⟩
  rw [declared?_line ("variable".toList ++ ' ' :: (name.toList ++ ' ' :: [])) rest.toList,
    List.splitOn_append_cons_self, List.splitOn_append_cons_self, splitOn_word hname,
    splitOn_word (by decide), List.splitOn_nil]
  · simp [nameIn]
  · simpa using hcolon
  · simp

theorem names_literalCode (value : Int64) (t : HwType) : (literalCode value t).names = [] := by
  induction t with
  | boolean => rfl
  | signed width | unsigned width =>
    unfold literalCode
    split <;> rfl
  | array element length ih => exact ih

theorem names_resizeCode (c : Code) (source target : HwType) :
    (resizeCode c source target).names = c.names := by
  cases source <;> cases target <;> rfl

theorem plain_defaultCode (t : HwType) : Plain (defaultCode t).print := by
  apply Code.plain_print
  suffices h : (defaultCode t).names = [] by simp [h]
  induction t with
  | boolean | signed width | unsigned width => rfl
  | array element length ih => exact ih

namespace Scope

variable {s : Scope} (hn : s.names.isVerbose = false)

include hn

theorem isWord_variable (name : String) : IsWord (s.variableName name) :=
  Names.isWord_variableName hn name _

theorem isWord_signal (signal : SignalRef) : IsWord (s.signal signal) := by
  cases signal with
  | own pin => exact Names.isWord_instanceSignal hn _ _ pin
  | invocation target slot pin => exact Names.isWord_slotSignal hn _ _ _ _ pin

theorem isWord_of_mem_names (e : HwExpr) : ∀ x ∈ (s.code e).names, IsWord x := by
  induction e with
  | bool value => nofun
  | int value type => simp [code, names_literalCode]
  | «variable» name => exact List.forall_mem_singleton.2 (isWord_variable hn name)
  | signal signal => exact List.forall_mem_singleton.2 (isWord_signal hn signal)
  | unary op e ih => cases op <;> exact ih
  | binary op a b type iha ihb => cases op <;> exact List.forall_mem_append.2 ⟨iha, ihb⟩
  | index a i iha ihi => exact List.forall_mem_append.2 ⟨iha, ihi⟩
  | resize e source target ih => rwa [code, names_resizeCode]

theorem plain_expr (e : HwExpr) : Plain (s.expr e) :=
  Code.plain_print (isWord_of_mem_names hn e)

theorem plain_target (t : HwTarget) : Plain (s.target t).1 ∧ Plain (s.target t).2 := by
  cases t with
  | «variable» name => exact ⟨(isWord_variable hn name).plain, (by decide : Plain ":=")⟩
  | element array index =>
    refine ⟨Code.plain_print ?_, (by decide : Plain ":=")⟩
    exact List.forall_mem_cons.2 ⟨isWord_variable hn array, isWord_of_mem_names hn index⟩
  | signal signal => exact ⟨(isWord_signal hn signal).plain, (by decide : Plain "<=")⟩

end Scope

theorem isSilent_if (h : Plain text) : (Step.line ("if " ++ text ++ " then")).IsSilent :=
  isSilent_line (.append (.append (by decide) h) (by decide))

namespace Scope

variable {s : Scope}

mutual

theorem silent_stmt (hn : s.names.isVerbose = false) : ∀ t, Silent (s.stmt t)
  | .assign target value => by
    obtain ⟨hleft, hsign⟩ := plain_target hn target
    refine List.forall_mem_singleton.2 (isSilent_line ?_)
    exact .append (.append (.append (.append (.append hleft (by decide)) hsign) (by decide))
      (plain_expr hn value)) (by decide)
  | .branch condition thenBody elseBody => by
    have hthen := silent_stmts hn thenBody
    have helse := silent_stmts hn elseBody
    have hcondition := isSilent_if (plain_expr hn condition)
    simp +decide [stmt, hcondition, hthen, helse, isSilent_line]
  | .comment text => by simp [stmt, hn]

theorem silent_stmts (hn : s.names.isVerbose = false) : ∀ ts, Silent (s.stmts ts)
  | [] => silent_nil
  | t :: ts => silent_append.2 ⟨silent_stmt hn t, silent_stmts hn ts⟩

end

variable (hn : s.names.isVerbose = false)

include hn

theorem isSilent_goTo (id : StateId) : (s.goTo id).IsSilent :=
  isSilent_line (.append (.append (by decide) (Names.isWord_state hn id).plain) (by decide))

theorem silent_transition (t : Transition StateId) : Silent (s.transition t) := by
  cases t with
  | goto next => simp [transition, isSilent_goTo hn]
  | branch condition ifTrue ifFalse =>
    have hcondition := isSilent_if (plain_expr hn condition)
    simp +decide [transition, hcondition, isSilent_goTo hn, isSilent_line]
  | waitFor condition next =>
    have hcondition := isSilent_if (plain_expr hn condition)
    simp +decide [transition, hcondition, isSilent_goTo hn, isSilent_line]

theorem silent_state (st : State StateId) : Silent (s.state st) := by
  have hbody := silent_stmts hn st.body
  have htransition := silent_transition hn st.transition
  have hwhen : (Step.line ("when " ++ s.names.state st.id ++ " =>")).IsSilent :=
    isSilent_line (.append (.append (by decide) (Names.isWord_state hn st.id).plain) (by decide))
  have hwait : (Step.line
      ("if wait_count < " ++ toString st.waitCycles.toNat ++ " then")).IsSilent :=
    isSilent_line (.append (.append (by decide) (plain_toString _)) (by decide))
  simpa +decide [state, hn, hbody, htransition, hwhen, isSilent_line] using fun _ ↦ hwait

theorem silent_declaration (d : Declaration) : Silent (s.declaration d) := by
  have hrest : Clean (typeText d.type ++ " := " ++ (defaultCode d.type).print ++ ";") :=
    .append (.append (.append (plain_typeText _).clean (by decide)) (plain_defaultCode _).clean)
      (by decide)
  have hline := isSilent_variable _ _ (isWord_variable hn d.name) hrest
  simp only [String.append_assoc] at hline
  obtain ⟨name, type, comment⟩ := d
  cases comment <;> simp [declaration, hn, String.append_assoc, hline]

theorem silent_resetSignals : Silent s.resetSignals := by
  have hclear (signal : SignalRef) : (Step.line (s.signal signal ++ " <= false;")).IsSilent :=
    isSilent_line (.append (isWord_signal hn signal).plain (by decide))
  rw [resetSignals, silent_cons]
  refine ⟨hclear _, silent_flatMap fun i _ ↦ List.forall_mem_map.2 fun slot _ ↦ hclear _⟩

theorem silent_heading : Silent
    ([Step.line ("type state_t is ("
        ++ joinWith ", " (s.component.states.map fun st ↦ s.names.state st.id) ++ ");"),
      Step.line ("variable state : state_t := " ++ s.names.state Component.idleState ++ ";")]
      ++ (if 0 < s.maxWait then
          [Step.line ("variable wait_count : natural range 0 to " ++ toString s.maxWait
            ++ " := 0;")]
        else [])) := by
  have hidle : Plain (s.names.state Component.idleState) := (Names.isWord_state hn _).plain
  have hstates : Plain (joinWith ", " (s.component.states.map fun st ↦ s.names.state st.id)) :=
    plain_joinWith (List.forall_mem_map.2 fun st _ ↦ Names.isWord_state hn st.id)
  have htype := isSilent_line (.append (.append (by decide : Plain "type state_t is (") hstates)
    (by decide : Plain ");"))
  have hvariable := isSilent_variable "state"
    ("state_t := " ++ s.names.state Component.idleState ++ ";") (by decide)
    (.append (.append (by decide) hidle.clean) (by decide))
  have hcounter := isSilent_variable "wait_count"
    ("natural range 0 to " ++ toString s.maxWait ++ " := 0;") (by decide)
    (.append (.append (by decide) (plain_toString _).clean) (by decide))
  simp only [← String.append_assoc] at hvariable hcounter
  rw [silent_append, silent_cons, silent_cons, silent_ite]
  refine ⟨⟨htype, hvariable, silent_nil⟩, fun _ ↦ ?_, fun _ ↦ silent_nil⟩
  exact List.forall_mem_singleton.2 hcounter

theorem declares_process :
    Declares s.process [s.names.processLabel s.component.name s.number] := by
  have hlabel := declares_label (s.names.isWord_processLabel s.component.name s.number)
  have hheading := silent_heading hn
  have hidle : (Step.line ("state := " ++ s.names.state Component.idleState ++ ";")).IsSilent :=
    isSilent_goTo hn _
  have hdeclarations : Silent (s.component.declarations.flatMap s.declaration) :=
    silent_flatMap fun d _ ↦ silent_declaration hn d
  have hcases : Silent (s.component.states.flatMap s.state) :=
    silent_flatMap fun st _ ↦ silent_state hn st
  have hreset := silent_resetSignals hn
  unfold process
  simp only [hn, Bool.false_eq_true, if_false, List.nil_append, List.append_assoc, List.cons_append]
  refine hlabel.cons ?_
  simpa +decide [hidle, hdeclarations, hreset, hcases, isSilent_line] using hheading

end Scope

namespace Names

variable {n : Names} (hn : n.isVerbose = false) (p : Proxy)

include hn

theorem isWord_port (port : Port) : IsWord (n.port p port) := by
  cases port with
  | slot index pin => exact isWord_slotSignal hn _ _ _ _ pin
  | unit number pin => exact isWord_instanceSignal hn _ _ pin

theorem plain_condition (c : Condition) : Plain (n.condition p c) := by
  induction c with
  | reset => exact (by decide : Plain "Reset = '1'")
  | high port => exact (isWord_port hn p port).plain
  | flag flags index =>
    have hflags : Plain flags.name := by cases flags <;> decide
    exact .append (.append (.append hflags (by decide)) (plain_toString index)) (by decide)
  | assigned slot number =>
    exact .append (.append (.append (by decide) (plain_toString slot)) (by decide))
      (plain_toString number)
  | not c ih => exact .append (by decide) ih

omit hn in
theorem isSilent_connect {left right : String} (hl : Plain left) (hr : Plain right) :
    (connect left right).IsSilent :=
  isSilent_line (.append (.append (.append hl (by decide)) hr) (by decide))

theorem silent_drive (target : Port) (source : Option Port) :
    Silent (n.sequential p (.drive target source)) := by
  have hsource : Plain ((source.map (n.port p)).getD "false") := by
    cases source with
    | none => exact (by decide : Plain "false")
    | some port => exact (isWord_port hn p port).plain
  simpa [sequential] using isSilent_connect (isWord_port hn p target).plain hsource

omit hn in
theorem silent_set (flags : Flags) (index : Nat) (value : Bool) :
    Silent (n.sequential p (.set flags index value)) := by
  have hflags : Plain flags.name := by cases flags <;> decide
  have hvalue : Plain (toString value) := by cases value <;> decide
  refine List.forall_mem_singleton.2 (isSilent_line ?_)
  exact .append (.append (.append (.append (.append hflags (by decide)) (plain_toString index))
    (by decide)) hvalue) (by decide)

omit hn in
theorem silent_clear (flags : Flags) : Silent (n.sequential p (.clear flags)) := by
  cases flags <;> exact List.forall_mem_singleton.2 (isSilent_line (by decide))

omit hn in
theorem silent_assign (slot number : Nat) : Silent (n.sequential p (.assign slot number)) := by
  refine List.forall_mem_singleton.2 (isSilent_line ?_)
  exact .append (.append (.append (.append (by decide) (plain_toString slot)) (by decide))
    (plain_toString number)) (by decide)

omit hn in
theorem silent_sequentials {ss : List Sequential} (h : ∀ s ∈ ss, Silent (n.sequential p s)) :
    Silent (n.sequentials p ss) := by
  induction ss with
  | nil => exact silent_nil
  | cons s ss ih =>
    rw [List.forall_mem_cons] at h
    exact silent_append.2 ⟨h.1, ih h.2⟩

theorem silent_branches {branches : List (Condition × List Sequential)}
    (h : ∀ b ∈ branches, ∀ s ∈ b.2, Silent (n.sequential p s)) {word : String}
    (hword : Plain word) : Silent (n.sequentialBranches p word branches) := by
  induction branches generalizing word with
  | nil => exact silent_nil
  | cons b branches ih =>
    rw [List.forall_mem_cons] at h
    have hline := isSilent_line (.append (.append (.append hword (by decide : Plain " "))
      (plain_condition hn p b.1)) (by decide : Plain " then"))
    have hbody := silent_sequentials p h.1
    have hrest := ih h.2 (by decide : Plain "elsif")
    simp [sequentialBranches, hline, hbody, hrest]

theorem silent_choose {branches : List (Condition × List Sequential)}
    {otherwise : Option (List Sequential)}
    (h : ∀ b ∈ branches, ∀ s ∈ b.2, Silent (n.sequential p s))
    (hotherwise : ∀ body ∈ otherwise, ∀ s ∈ body, Silent (n.sequential p s)) :
    Silent (n.sequential p (.choose branches otherwise)) := by
  have hbranches := silent_branches hn p h (by decide : Plain "if")
  cases otherwise with
  | none => simp +decide [sequential, sequentialRest, hbranches, isSilent_line]
  | some body =>
    have hbody := silent_sequentials p (hotherwise body rfl)
    simp +decide [sequential, sequentialRest, hbranches, hbody, isSilent_line]

theorem silent_acquire (index : Nat) : Silent (n.sequential p (acquire p index)) := by
  apply silent_choose hn p
  · simp [silent_set, silent_assign, silent_drive hn]
  · simp

theorem silent_release (index : Nat) : Silent (n.sequential p (release p index)) := by
  apply silent_choose hn p
  · rw [List.forall_mem_map]
    intro k _
    rw [List.forall_mem_singleton]
    apply silent_choose hn p
    · simp [silent_drive hn]
    · have hfree : Silent (n.sequential p (.choose
          [(.not (.high (.unit k .finished)), [.set .busy k false, .set .active index false])]
          none)) := by
        apply silent_choose hn p <;> simp [silent_set]
      simp [silent_drive hn, hfree]
  · simp

theorem silent_serveSlot (index : Nat) : Silent (n.sequential p (serveSlot p index)) := by
  have hask : Silent (n.sequential p
      (.choose [(.high (.slot index .started), [acquire p index])] none)) := by
    apply silent_choose hn p <;> simp [silent_acquire hn]
  apply silent_choose hn p
  · simp [silent_drive hn, hask]
  · simp [silent_release hn]

theorem silent_arbitrate : Silent (n.sequential p (n.arbitrate p)) := by
  apply silent_choose hn p
  · simp [resetAll, silent_clear, silent_drive hn, or_imp, forall_and]
  · intro body hbody s hs
    obtain rfl := Option.some.inj hbody
    obtain ⟨⟨slot, index⟩, -, hmem⟩ := List.mem_flatMap.1 hs
    obtain rfl : s = serveSlot p index := by simpa [hn] using hmem
    exact silent_serveSlot hn p index

theorem silent_directProxy : Silent (n.directProxy p) := by
  unfold directProxy
  split
  next => exact silent_nil
  next slot slots hslots =>
    have hunit (pin : PinKind) : Plain (n.instanceSignal p.target 0 pin) :=
      (isWord_instanceSignal hn _ _ pin).plain
    have hslot (pin : PinKind) : Plain (n.proxySlot p slot pin) :=
      (isWord_slotSignal hn _ _ _ _ pin).plain
    simp only [hn, Bool.false_eq_true, if_false, List.nil_append, silent_append]
    exact ⟨List.forall_mem_map.2 fun pin _ ↦ isSilent_connect (hunit pin) (hslot pin),
      List.forall_mem_map.2 fun pin _ ↦ isSilent_connect (hslot pin) (hunit pin)⟩

theorem declares_dispatcher : Declares (n.dispatcher p) [n.proxyLabel p.target] := by
  have hlabel := declares_label (n.isWord_proxyLabel p.target)
  have hbody := silent_arbitrate hn p
  have htable := isSilent_line (.append (.append (.append (.append
    (by decide : Plain "type assignment_t is array (0 to ") (plain_toString (p.slots.length - 1)))
    (by decide : Plain ") of natural range 0 to "))
    (plain_toString (max p.instanceCount.toNat 1 - 1))) (by decide : Plain ";"))
  have hslots := isSilent_line (.append (.append
    (by decide : Plain "type slot_flags_t is array (0 to ") (plain_toString (p.slots.length - 1)))
    (by decide : Plain ") of boolean;"))
  have hunits := isSilent_line (.append (.append
    (by decide : Plain "type instance_flags_t is array (0 to ")
    (plain_toString (max p.instanceCount.toNat 1 - 1))) (by decide : Plain ") of boolean;"))
  have hassigned := isSilent_variable "assigned" "assignment_t := (others => 0);" (by decide)
    (by decide)
  have hactive := isSilent_variable "active" "slot_flags_t := (others => false);" (by decide)
    (by decide)
  have hbusy := isSilent_variable "busy" "instance_flags_t := (others => false);" (by decide)
    (by decide)
  unfold dispatcher
  simp only [hn, Bool.false_eq_true, if_false, List.nil_append, List.append_assoc, List.cons_append]
  refine hlabel.cons ?_
  simp only [silent_append, silent_cons, silent_indented]
  refine ⟨⟨htable, hslots, hunits, hassigned, hactive, hbusy, silent_nil⟩, ?_⟩
  simp +decide [hbody, isSilent_line]

theorem declares_proxy : Declares (Step.blank :: n.proxy p)
    (if p.kind = .dispatcher then [n.proxyLabel p.target] else []) := by
  have hblank : Silent [.blank] := by simp [isSilent_ends]
  have hproxy : Declares (n.proxy p)
      (if p.kind = .dispatcher then [n.proxyLabel p.target] else []) := by
    unfold proxy
    cases p.kind with
    | direct => exact (silent_directProxy hn p).declares
    | dispatcher => exact declares_dispatcher hn p
  exact hblank.declares.append hproxy

end Names

end Vhdl

end Fabric
