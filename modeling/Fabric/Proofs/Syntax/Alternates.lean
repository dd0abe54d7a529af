import Fabric.Syntax.Index
import Mathlib.Data.List.Nodup
import Mathlib.Data.List.TakeWhile

namespace Fabric

section

variable {names : List (List Char)} {name : List Char}

theorem mem_addName {other : List Char} :
    other ∈ addName names name ↔ other ∈ names ∨ other ≠ [] ∧ other = name := by
  unfold addName
  split
  next h =>
    rw [Bool.or_eq_true, List.isEmpty_iff, List.contains_iff_mem] at h
    refine ⟨.inl, ?_⟩
    rintro (hmem | ⟨hne, rfl⟩)
    · exact hmem
    · exact h.resolve_left hne
  next h =>
    rw [Bool.or_eq_true, List.isEmpty_iff, not_or] at h
    rw [List.mem_append, List.mem_singleton]
    refine or_congr_right ⟨?_, And.right⟩
    rintro rfl
    exact ⟨h.1, rfl⟩

theorem nodup_addName (h : names.Nodup) : (addName names name).Nodup := by
  unfold addName
  split
  · exact h
  next hnew =>
    rw [Bool.or_eq_true, List.contains_iff_mem, not_or] at hnew
    exact h.append (List.nodup_singleton name) (List.disjoint_singleton.2 hnew.2)

theorem prefix_addName (names : List (List Char)) (name : List Char) :
    names <+: addName names name := by
  unfold addName
  split
  · exact List.prefix_rfl
  · exact List.prefix_append names [name]

end

section

variable {name other : String}

theorem nameAlternates_eq_cons (name : String) : ∃ rest, nameAlternates name = name :: rest := by
  obtain ⟨rest, hrest⟩ := ((prefix_addName [name.toList] _).trans (prefix_addName _ _)).trans
    (prefix_addName (addName (addName [name.toList] (simpleName name.toList))
      (stripGeneric name.toList)) (stripGeneric (simpleName name.toList)))
  refine ⟨rest.map String.ofList, ?_⟩
  unfold nameAlternates
  dsimp only
  rw [← hrest, List.singleton_append, List.map_cons, String.ofList_toList]

theorem self_mem_nameAlternates (name : String) : name ∈ nameAlternates name := by
  obtain ⟨rest, hrest⟩ := nameAlternates_eq_cons name
  rw [hrest]
  exact List.mem_cons_self

theorem nodup_nameAlternates (name : String) : (nameAlternates name).Nodup :=
  (nodup_addName (nodup_addName (nodup_addName (List.nodup_singleton _)))).map
    fun _ _ ↦ String.ofList_injective

theorem mem_nameAlternates_iff : other ∈ nameAlternates name ↔ other = name ∨ other ≠ "" ∧
    (other.toList = simpleName name.toList ∨ other.toList = stripGeneric name.toList ∨
      other.toList = stripGeneric (simpleName name.toList)) := by
  have htext (names : List (List Char)) :
      other ∈ names.map String.ofList ↔ other.toList ∈ names := by
    rw [← List.mem_map_of_injective fun _ _ ↦ String.ofList_injective, String.ofList_toList]
  unfold nameAlternates
  rw [htext, mem_addName, mem_addName, mem_addName, List.mem_singleton, String.toList_inj, ne_eq,
    String.toList_eq_nil_iff, or_assoc, or_assoc, ← and_or_left, ← and_or_left]

theorem empty_notMem_nameAlternates (h : name ≠ "") : "" ∉ nameAlternates name := by
  rw [mem_nameAlternates_iff]
  rintro (hname | hne)
  · exact h hname.symm
  · exact hne.1 rfl

end

section

variable {cs g : List Char}

theorem simpleName_append (before : List Char) {after : List Char} (h : '.' ∉ after) :
    simpleName (before ++ '.' :: after) = after := by
  have hreverse : (before ++ '.' :: after).reverse = after.reverse ++ '.' :: before.reverse := by
    simp
  have hafter : ∀ c ∈ after.reverse, decide (c ≠ '.') = true := by
    intro c hc
    rw [decide_eq_true_eq]
    rintro rfl
    exact h (List.mem_reverse.1 hc)
  rw [simpleName, hreverse, List.takeWhile_append_of_pos hafter,
    List.takeWhile_cons_of_neg (by decide), List.append_nil, List.reverse_reverse]

theorem exists_eq_append_simpleName (h : '.' ∈ cs) :
    ∃ before, cs = before ++ '.' :: simpleName cs ∧ '.' ∉ simpleName cs := by
  obtain ⟨after, before, heq, hafter⟩ := List.eq_append_cons_of_mem (List.mem_reverse.2 h)
  have hcs : cs = before.reverse ++ '.' :: after.reverse := by
    rw [← List.reverse_reverse cs, heq]
    simp
  have hpoint : '.' ∉ after.reverse := fun hmem ↦ hafter (List.mem_reverse.1 hmem)
  have hsimple : simpleName cs = after.reverse := by
    rw [hcs]
    exact simpleName_append _ hpoint
  rw [hsimple]
  exact ⟨before.reverse, hcs, hpoint⟩

theorem simpleName_append_of_mem (cs : List Char) (h : '.' ∈ g) :
    simpleName (cs ++ g) = simpleName g := by
  obtain ⟨before, hg, hpoint⟩ := exists_eq_append_simpleName h
  calc simpleName (cs ++ g)
    _ = simpleName (cs ++ before ++ '.' :: simpleName g) := by rw [List.append_assoc, ← hg]
    _ = simpleName g := simpleName_append (cs ++ before) hpoint

end

def OpensGeneric (c : Char) : Prop :=
  c = '`' ∨ c = '<'

instance : DecidablePred OpensGeneric :=
  fun c ↦ inferInstanceAs (Decidable (c = '`' ∨ c = '<'))

def IsGenericSuffix (g : List Char) : Prop :=
  ∀ c ∈ g.head?, OpensGeneric c

/-- A name without a qualification and without a generic suffix. -/
structure IsSimpleName (n : List Char) : Prop where
  nonempty : n ≠ []
  point : '.' ∉ n
  plain : ∀ c ∈ n, ¬ OpensGeneric c

section

variable {cs n g q : List Char}

theorem isGenericSuffix_nil : IsGenericSuffix [] := by
  intro c hc
  cases hc

theorem isGenericSuffix_cons {c : Char} : IsGenericSuffix (c :: cs) ↔ OpensGeneric c := by
  simp [IsGenericSuffix]

instance : (g : List Char) → Decidable (IsGenericSuffix g)
  | [] => .isTrue isGenericSuffix_nil
  | _ :: _ => decidable_of_iff _ isGenericSuffix_cons.symm

theorem isSimpleName_iff :
    IsSimpleName n ↔ n ≠ [] ∧ '.' ∉ n ∧ n.all fun c ↦ !decide (OpensGeneric c) := by
  simp only [List.all_eq_true, Bool.not_eq_true', decide_eq_false_iff_not]
  exact ⟨fun h ↦ ⟨h.nonempty, h.point, h.plain⟩, fun ⟨hne, hpoint, hplain⟩ ↦ ⟨hne, hpoint, hplain⟩⟩

instance (n : List Char) : Decidable (IsSimpleName n) :=
  decidable_of_iff _ isSimpleName_iff.symm

theorem stripGeneric_append (hn : ∀ c ∈ n, ¬ OpensGeneric c) (hg : IsGenericSuffix g) :
    stripGeneric (n ++ g) = n := by
  unfold stripGeneric
  rw [List.takeWhile_append_of_pos fun c hc ↦ by simpa [OpensGeneric] using hn c hc]
  cases g with
  | nil => rw [List.takeWhile_nil, List.append_nil]
  | cons c g =>
    rw [isGenericSuffix_cons] at hg
    rw [List.takeWhile_cons_of_neg (by rcases hg with rfl | rfl <;> decide), List.append_nil]

theorem exists_eq_stripGeneric_append (cs : List Char) :
    ∃ g, IsGenericSuffix g ∧ cs = stripGeneric cs ++ g := by
  refine ⟨cs.dropWhile fun c ↦ c ≠ '`' && c ≠ '<', fun c hc ↦ ?_,
    List.takeWhile_append_dropWhile.symm⟩
  have hhead := List.head?_dropWhile_not (fun c ↦ c ≠ '`' && c ≠ '<') cs
  rw [Option.mem_def.1 hc] at hhead
  simpa [OpensGeneric, or_iff_not_imp_left] using hhead

theorem stripGeneric_eq_iff (hn : ∀ c ∈ n, ¬ OpensGeneric c) :
    stripGeneric cs = n ↔ ∃ g, IsGenericSuffix g ∧ cs = n ++ g := by
  constructor
  · rintro rfl
    exact exists_eq_stripGeneric_append cs
  · rintro ⟨g, hg, rfl⟩
    exact stripGeneric_append hn hg

/-- The suffix ends in the name, behind its last point and up to another suffix: `Map` in the
`<System.Map<T>>` of `Map<System.Map<T>>`. -/
def EndsInName (n g : List Char) : Prop :=
  ∃ before after, g = before ++ '.' :: (n ++ after) ∧ '.' ∉ after ∧ IsGenericSuffix after

/-- The qualification begins with the name and a suffix of it: `Map` in the `Map<T>` of `Map<T>.Map`. -/
def BeginsWithName (n q : List Char) : Prop :=
  ∃ after, after ≠ [] ∧ IsGenericSuffix after ∧ q = n ++ after

variable (hn : IsSimpleName n)

include hn

theorem IsSimpleName.point_notMem_append (hg : '.' ∉ g) : '.' ∉ n ++ g := by
  rw [List.mem_append]
  exact not_or.2 ⟨hn.point, hg⟩

theorem stripGeneric_self : stripGeneric n = n := by
  rw [stripGeneric_eq_iff hn.plain]
  exact ⟨[], isGenericSuffix_nil, (List.append_nil n).symm⟩

theorem stripGeneric_simpleName_eq_iff (hg : '.' ∈ g) :
    stripGeneric (simpleName g) = n ↔ EndsInName n g := by
  rw [stripGeneric_eq_iff hn.plain]
  constructor
  · rintro ⟨after, hafter, heq⟩
    obtain ⟨before, hbefore, hpoint⟩ := exists_eq_append_simpleName hg
    rw [heq] at hbefore hpoint
    exact ⟨before, after, hbefore, fun h ↦ hpoint (List.mem_append_right n h), hafter⟩
  · rintro ⟨before, after, rfl, hpoint, hafter⟩
    exact ⟨after, hafter, simpleName_append before (hn.point_notMem_append hpoint)⟩

theorem stripGeneric_qualified_eq_iff (rest : List Char) :
    stripGeneric (q ++ '.' :: rest) = n ↔ BeginsWithName n q := by
  have hpoint : ¬ IsGenericSuffix ('.' :: rest) := by
    rw [isGenericSuffix_cons]
    decide
  rw [stripGeneric_eq_iff hn.plain]
  constructor
  · rintro ⟨g, hg, heq⟩
    rcases List.append_eq_append_iff.1 heq with ⟨inName, hname, hrest⟩ | ⟨after, rfl, rfl⟩
    · -- The name would reach up to the point or over it.
      cases inName with
      | nil => exact absurd ((List.nil_append g ▸ hrest) ▸ hg) hpoint
      | cons c inName =>
        obtain ⟨rfl, -⟩ := List.cons.inj hrest
        exact absurd (hname ▸ List.mem_append_right q List.mem_cons_self) hn.point
    · cases after with
      | nil => exact absurd hg hpoint
      | cons c after =>
        have hopens := isGenericSuffix_cons.1 hg
        exact ⟨c :: after, List.cons_ne_nil c after, isGenericSuffix_cons.2 hopens, rfl⟩
  · rintro ⟨after, hne, hafter, rfl⟩
    refine ⟨after ++ '.' :: rest, ?_, List.append_assoc n after _⟩
    obtain ⟨c, after, rfl⟩ := List.exists_cons_of_ne_nil hne
    exact isGenericSuffix_cons.2 (isGenericSuffix_cons.1 hafter)

theorem stripGeneric_simpleName_qualified_eq_iff (q : List Char) (hg : IsGenericSuffix g) :
    stripGeneric (simpleName (q ++ '.' :: (n ++ g))) = n ↔ '.' ∉ g ∨ EndsInName n g := by
  by_cases hpoint : '.' ∈ g
  · have hlast : simpleName (q ++ '.' :: (n ++ g)) = simpleName g := by
      rw [← List.cons_append, ← List.append_assoc]
      exact simpleName_append_of_mem _ hpoint
    rw [hlast, stripGeneric_simpleName_eq_iff hn hpoint, or_iff_right (not_not.2 hpoint)]
  · rw [simpleName_append q (hn.point_notMem_append hpoint), stripGeneric_append hn.plain hg]
    exact iff_of_true rfl (.inl hpoint)

/-- When the simple name is one of the candidates. The first one adds nothing: a simple name has no suffix
to be cut off. -/
theorem eq_candidate_iff (q : List Char) (hg : IsGenericSuffix g) :
    (n = simpleName (q ++ '.' :: (n ++ g)) ∨ n = stripGeneric (q ++ '.' :: (n ++ g)) ∨
        n = stripGeneric (simpleName (q ++ '.' :: (n ++ g)))) ↔
      '.' ∉ g ∨ EndsInName n g ∨ BeginsWithName n q := by
  have hwhole : n = stripGeneric (q ++ '.' :: (n ++ g)) ↔ BeginsWithName n q :=
    eq_comm.trans (stripGeneric_qualified_eq_iff hn (n ++ g))
  have hlast : n = stripGeneric (simpleName (q ++ '.' :: (n ++ g))) ↔ '.' ∉ g ∨ EndsInName n g :=
    eq_comm.trans (stripGeneric_simpleName_qualified_eq_iff hn q hg)
  have hcut (h : n = simpleName (q ++ '.' :: (n ++ g))) :
      n = stripGeneric (simpleName (q ++ '.' :: (n ++ g))) := by
    rw [← h, stripGeneric_self hn]
  rw [or_iff_right_of_imp fun h ↦ .inr (hcut h), hwhole, hlast, or_comm, or_assoc]

end

/-- A qualified generic name is known under its simple name exactly if there is no point in its generic
suffix, or the simple name stands behind the last point there, or at the start of a generic
qualification. The alternates are distinct, none is empty, and the name itself is the first. -/
theorem nameAlternates_exact (q : String) {n g : String} (hn : IsSimpleName n.toList)
    (hg : IsGenericSuffix g.toList) :
    (n ∈ nameAlternates (q ++ "." ++ n ++ g) ↔ '.' ∉ g.toList ∨ EndsInName n.toList g.toList ∨
      BeginsWithName n.toList q.toList) ∧
    (nameAlternates (q ++ "." ++ n ++ g)).head? = some (q ++ "." ++ n ++ g) ∧
    (nameAlternates (q ++ "." ++ n ++ g)).Nodup ∧ "" ∉ nameAlternates (q ++ "." ++ n ++ g) := by
  obtain ⟨name, hname⟩ : ∃ name, name = q ++ "." ++ n ++ g := ⟨_, rfl⟩
  have hlist : name.toList = q.toList ++ '.' :: (n.toList ++ g.toList) := by
    rw [hname]
    simp
  have hne : name ≠ "" := by
    rintro rfl
    simp at hlist
  have hown : n ≠ name := by
    rintro rfl
    exact hn.point (hlist ▸ List.mem_append_right _ List.mem_cons_self)
  have hsimple : n ≠ "" := fun h ↦ hn.nonempty (String.toList_eq_nil_iff.2 h)
  rw [← hname]
  refine ⟨?_, ?_, nodup_nameAlternates name, empty_notMem_nameAlternates hne⟩
  · rw [mem_nameAlternates_iff, or_iff_right hown, and_iff_right hsimple, hlist]
    exact eq_candidate_iff hn q.toList hg
  · obtain ⟨rest, hrest⟩ := nameAlternates_eq_cons name
    rw [hrest, List.head?_cons]

/-- Points in the arguments of the interface do no harm. -/
theorem nameAlternates_exact_kernel :
    IsSimpleName "Map".toList ∧ IsGenericSuffix "<T>".toList ∧
      let name := "Demo.IKernel<System.Int32>.Map<T>"
      "Map" ∈ nameAlternates name ∧ (nameAlternates name).head? = some name ∧
        (nameAlternates name).Nodup ∧ "" ∉ nameAlternates name := by
  have hn : IsSimpleName "Map".toList := by decide
  have hg : IsGenericSuffix "<T>".toList := by decide
  obtain ⟨hmem, hrest⟩ := nameAlternates_exact "Demo.IKernel<System.Int32>" hn hg
  exact ⟨hn, hg, hmem.2 (.inl (by decide)), hrest⟩

/-- Points in the arguments of the method do: it is known under the rest of them. -/
theorem exists_simpleName_unknown : ∃ q n g : String, IsSimpleName n.toList ∧
    IsGenericSuffix g.toList ∧ n ∉ nameAlternates (q ++ "." ++ n ++ g) ∧
      nameAlternates (q ++ "." ++ n ++ g) = [q ++ "." ++ n ++ g, "Int32>", q ++ "." ++ n] :=
  ⟨"Demo.IKernel", "Map", "<System.Int32>", by decide, by decide, by decide, by decide⟩

end Fabric
