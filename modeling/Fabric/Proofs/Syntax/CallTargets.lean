import Fabric.Proofs.Construction.Arguments
import Fabric.Proofs.Resolution.Basic
import Fabric.Proofs.Syntax.Alternates

namespace Fabric

theorem find?_zipIdx {α : Type} (p : α → Bool) (items : List α) (k : Nat) :
    ((items.zipIdx k).find? fun e ↦ p e.1).map Prod.snd = (items.findIdx? p).map (· + k) := by
  induction items generalizing k with
  | nil => rfl
  | cons a items ih =>
    rw [List.zipIdx_cons, List.find?_cons, List.findIdx?_cons]
    cases p a with
    | true => simp
    | false =>
      simp only [ih, Bool.false_eq_true, ↓reduceIte, Option.map_map]
      congr 1
      funext i
      simp only [Function.comp_apply]
      omega

theorem lookup_isSome_iff {α β : Type} [DecidableEq α] {entries : List (α × β)} {a : α} :
    (entries.lookup a).isSome ↔ a ∈ entries.map Prod.fst := by
  induction entries with
  | nil => simp
  | cons e entries ih =>
    rw [Dictionary.lookup_cons_eq_ite, List.map_cons, List.mem_cons, ← ih]
    by_cases h : a = e.1 <;> simp [h]

namespace Signatures

theorem lookup_insertIfNew (x : Signatures) (s s' : Signature) (h : MemberHandle) :
    (x.insertIfNew s h).lookup s' = (x.lookup s').or (if s' = s then some h else none) := by
  unfold insertIfNew
  by_cases hs : s' = s
  · subst hs
    cases hx : x.lookup s' with
    | none => simp [List.lookup_append, hx]
    | some h' => simp [hx]
  · rw [if_neg hs, Option.or_none]
    split
    · rfl
    · simp [List.lookup_append, Dictionary.lookup_cons_eq_ite, hs]

end Signatures

namespace TypeIndex

variable {d : TypeDecl} {typePos : Nat} {entries : List (MethodDecl × Nat)} {x y : TypeIndex}

theorem lookup_enterAlternates (typePos : Nat) (x : Signatures) (m : MethodDecl) (i : Nat)
    (s : Signature) : (enterAlternates typePos x (m, i)).lookup s = (x.lookup s).or
      (if s.typePos = typePos ∧ m.parameterTypes = s.parameterTypes ∧
        s.name ∈ nameAlternates m.name then some ⟨typePos, i⟩ else none) := by
  unfold enterAlternates
  induction nameAlternates m.name generalizing x with
  | nil => simp
  | cons name names ih =>
    rw [List.foldl_cons, ih, Signatures.lookup_insertIfNew, Option.or_assoc]
    congr 1
    by_cases hsame : s.typePos = typePos ∧ m.parameterTypes = s.parameterTypes
    · have heq : s = ⟨typePos, name, m.parameterTypes⟩ ↔ s.name = name := by
        rw [← hsame.1, hsame.2]
        exact ⟨congrArg Signature.name, fun h ↦ h ▸ rfl⟩
      rw [if_congr heq rfl rfl]
      by_cases hname : s.name = name <;> simp [hname, hsame]
    · have hne : s ≠ ⟨typePos, name, m.parameterTypes⟩ := fun h ↦ hsame (h ▸ ⟨rfl, rfl⟩)
      rw [if_neg hne, Option.none_or, if_neg fun h ↦ hsame ⟨h.1, h.2.1⟩,
        if_neg fun h ↦ hsame ⟨h.1, h.2.1⟩]

theorem lookup_foldl_enterAlternates (typePos : Nat) (x : Signatures)
    (entries : List (MethodDecl × Nat)) (s : Signature) :
    (entries.foldl (enterAlternates typePos) x).lookup s = (x.lookup s).or
      (if s.typePos = typePos then
        (entries.find? fun e ↦ e.1.parameterTypes = s.parameterTypes &&
          (nameAlternates e.1.name).contains s.name).map fun e ↦ ⟨typePos, e.2⟩
      else none) := by
  induction entries generalizing x with
  | nil => simp
  | cons e entries ih =>
    obtain ⟨m, i⟩ := e
    rw [List.foldl_cons, ih, lookup_enterAlternates, Option.or_assoc, List.find?_cons]
    congr 1
    by_cases hpos : s.typePos = typePos <;>
      by_cases htypes : m.parameterTypes = s.parameterTypes <;>
        by_cases hname : s.name ∈ nameAlternates m.name <;> simp [hpos, htypes, hname]

section

variable {m : MethodDecl} {i : Nat}

theorem enterMethods_cons (h : enterMethods d typePos ((m, i) :: entries) x = .ok y) :
    x.members.lookup (d.memberFullName m) = none ∧ enterMethods d typePos entries
      { x with
        members := (d.memberFullName m, ⟨typePos, i⟩) :: x.members
        signatures := x.signatures.insert ⟨typePos, m.name, m.parameterTypes⟩ ⟨typePos, i⟩ } =
          .ok y := by
  unfold enterMethods at h
  dsimp only at h
  split at h
  · cases h
  next hnew => exact ⟨Option.not_isSome_iff_eq_none.1 hnew, h⟩

theorem types_enterMethods (h : enterMethods d typePos entries x = .ok y) : y.types = x.types := by
  induction entries generalizing x with
  | nil => rw [Except.ok.inj h]
  | cons e entries ih => exact (ih (enterMethods_cons h).2).trans rfl

theorem members_enterMethods (h : enterMethods d typePos entries x = .ok y) :
    ∀ e ∈ entries, x.members.lookup (d.memberFullName e.1) = none := by
  induction entries generalizing x with
  | nil => simp
  | cons e entries ih =>
    obtain ⟨hnew, hrest⟩ := enterMethods_cons h
    refine List.forall_mem_cons.2 ⟨hnew, fun e' he' ↦ ?_⟩
    have hlookup := ih hrest e' he'
    rw [Dictionary.lookup_cons_eq_ite] at hlookup
    split at hlookup
    · cases hlookup
    · exact hlookup

theorem lookup_enterMethods (h : enterMethods d typePos entries x = .ok y) (s : Signature) :
    y.signatures.lookup s = (if s.typePos = typePos then
      (entries.find? fun e ↦ e.1.name = s.name && e.1.parameterTypes = s.parameterTypes).map
        fun e ↦ ⟨typePos, e.2⟩
      else none).or (x.signatures.lookup s) := by
  induction entries generalizing x with
  | nil =>
    rw [Except.ok.inj h]
    simp
  | cons e entries ih =>
    obtain ⟨m, i⟩ := e
    obtain ⟨-, hrest⟩ := enterMethods_cons h
    rw [ih hrest, List.find?_cons, Signatures.insert, Dictionary.lookup_cons_eq_ite]
    by_cases hown : s = ⟨typePos, m.name, m.parameterTypes⟩
    · subst hown
      -- Another method with this signature would have the same full name.
      have hother : entries.find? (fun e ↦ e.1.name = m.name &&
          e.1.parameterTypes = m.parameterTypes) = none := by
        rw [List.find?_eq_none]
        intro e he hsame
        have hnone := members_enterMethods hrest e he
        have hname : d.memberFullName e.1 = d.memberFullName m := by
          unfold TypeDecl.memberFullName MethodDecl.suffix
          simp_all
        simp [hname] at hnone
      simp [hother]
    · have hmiss : ¬ (s.typePos = typePos ∧ m.name = s.name ∧
          m.parameterTypes = s.parameterTypes) := by
        rintro ⟨hpos, hname, htypes⟩
        exact hown (by rw [← hpos, hname, htypes])
      by_cases hpos : s.typePos = typePos
      · have hfalse : (decide (m.name = s.name) && decide (m.parameterTypes = s.parameterTypes)) =
            false := by simpa [hpos] using hmiss
        simp [hown, hfalse]
      · simp [hown, hpos]

end

/-- What is found after a type was entered: what was there before and, for the position of the type, its
methods. -/
theorem enterType_eq_ok (h : x.enterType (d, typePos) = .ok y)
    (hfree : ∀ s, s.typePos = typePos → x.signatures.lookup s = none) :
    x.types.lookup d.fullName = none ∧ y.types = (d.fullName, typePos) :: x.types ∧
      ∀ s, y.signatures.lookup s = if s.typePos = typePos then
        (d.findMethod s.name s.parameterTypes).map fun i ↦ ⟨typePos, i⟩
        else x.signatures.lookup s := by
  unfold enterType at h
  dsimp only at h
  split at h
  · cases h
  next hnew =>
    obtain ⟨z, hz, rfl⟩ : ∃ z, enterMethods d typePos d.methods.zipIdx
        { x with types := (d.fullName, typePos) :: x.types } = .ok z ∧
          { z with signatures := d.methods.zipIdx.foldl (enterAlternates typePos) z.signatures } = y := by
      revert h
      cases enterMethods d typePos d.methods.zipIdx
        { x with types := (d.fullName, typePos) :: x.types } with
      | error e => exact nofun
      | ok z => exact fun h ↦ ⟨z, rfl, Except.ok.inj h⟩
    refine ⟨Option.not_isSome_iff_eq_none.1 hnew, types_enterMethods hz, fun s ↦ ?_⟩
    rw [lookup_foldl_enterAlternates, lookup_enterMethods hz]
    by_cases hpos : s.typePos = typePos
    · have hown := find?_zipIdx (fun m ↦ m.name = s.name && m.parameterTypes = s.parameterTypes)
        d.methods 0
      have halternate := find?_zipIdx (fun m ↦ m.parameterTypes = s.parameterTypes &&
        (nameAlternates m.name).contains s.name) d.methods 0
      simp only [Nat.add_zero, Option.map_id'] at hown halternate
      simp only [hpos, ↓reduceIte, hfree s hpos, Option.or_none, TypeDecl.findMethod, findPos,
        ← hown, ← halternate]
      cases d.methods.zipIdx.find? fun e ↦ e.1.name = s.name &&
        e.1.parameterTypes = s.parameterTypes with
      | none => simp [Function.comp_def]
      | some e => simp
    · simp [hpos]

theorem foldlM_enterType_cons {ds : List TypeDecl} {k : Nat}
    (h : ((d :: ds).zipIdx k).foldlM enterType x = .ok y) : ∃ z, x.enterType (d, k) = .ok z ∧
      (ds.zipIdx (k + 1)).foldlM enterType z = .ok y := by
  rw [List.zipIdx_cons, List.foldlM_cons] at h
  cases hz : x.enterType (d, k) with
  | error e =>
    rw [hz] at h
    cases h
  | ok z =>
    rw [hz] at h
    exact ⟨z, rfl, h⟩

theorem lookup_foldlM_enterType {ds : List TypeDecl} {k : Nat}
    (h : (ds.zipIdx k).foldlM enterType x = .ok y)
    (hfree : ∀ s, k ≤ s.typePos → x.signatures.lookup s = none) :
    (∀ name, y.types.lookup name =
      (x.types.lookup name).or ((ds.findIdx? fun d ↦ d.fullName = name).map (· + k))) ∧
      ∀ s, y.signatures.lookup s = if s.typePos < k then x.signatures.lookup s
        else ds[s.typePos - k]?.bind fun d ↦
          (d.findMethod s.name s.parameterTypes).map fun i ↦ ⟨s.typePos, i⟩ := by
  induction ds generalizing x k with
  | nil =>
    obtain rfl := Except.ok.inj h
    refine ⟨by simp, fun s ↦ ?_⟩
    by_cases hpos : s.typePos < k
    · rw [if_pos hpos]
    · rw [if_neg hpos, hfree s (Nat.le_of_not_lt hpos)]
      rfl
  | cons d ds ih =>
    obtain ⟨z, hz, hrest⟩ := foldlM_enterType_cons h
    obtain ⟨hnew, htypes, hlookup⟩ := enterType_eq_ok hz fun s hs ↦ hfree s (Nat.le_of_eq hs.symm)
    obtain ⟨ihtypes, ihlookup⟩ := ih hrest fun s hs ↦ by
      rw [hlookup, if_neg (by omega)]
      exact hfree s (by omega)
    refine ⟨fun name ↦ ?_, fun s ↦ ?_⟩
    · rw [ihtypes, htypes, Dictionary.lookup_cons_eq_ite, List.findIdx?_cons]
      by_cases hname : name = d.fullName
      · simp [hname, hnew]
      · simp [hname, Ne.symm hname, Function.comp_def, Nat.add_assoc, Nat.add_comm 1]
    · rw [ihlookup, hlookup]
      rcases Nat.lt_trichotomy s.typePos k with hlt | heq | hgt
      · rw [if_pos (by omega), if_neg (by omega), if_pos hlt]
      · rw [if_pos (by omega), if_pos heq, if_neg (by omega), heq, Nat.sub_self]
        rfl
      · have hsub : s.typePos - k = s.typePos - (k + 1) + 1 := by omega
        rw [if_neg (by omega), if_neg (by omega), hsub, List.getElem?_cons_succ]

theorem resolveCall_build {t : SyntaxTree} (h : build t = .ok x) (target : MemberRef) :
    x.resolveCall target = t.resolveCall target := by
  obtain ⟨htypes, hlookup⟩ := lookup_foldlM_enterType h fun _ _ ↦ rfl
  have htype : x.types.lookup target.declaringType = t.typePosition target.declaringType := by
    rw [htypes]
    simp [SyntaxTree.typePosition, findPos]
  unfold resolveCall SyntaxTree.resolveCall
  rw [htype]
  cases t.typePosition target.declaringType with
  | none => rfl
  | some typePos =>
    simp only [hlookup, Nat.not_lt_zero, ↓reduceIte, Nat.sub_zero, Option.bind_eq_bind,
      Option.bind_some]
    cases t.types[typePos]? with
    | none => simp
    | some d =>
      simp only [Option.bind_some]
      exact List.map_findSome?.symm.trans Option.map_eq_bind

theorem names_enterMethods (d : TypeDecl) (typePos : Nat) (entries : List (MethodDecl × Nat))
    (x : TypeIndex) {seen : List String} (hseen : ∀ n, n ∈ seen ↔ n ∈ x.members.map Prod.fst) :
    match SyntaxTree.firstRepeated seen (entries.map fun e ↦ d.memberFullName e.1) with
    | some name => enterMethods d typePos entries x = .error (.duplicateMember name)
    | none => ∃ y, enterMethods d typePos entries x = .ok y ∧ y.types = x.types ∧
      ∀ n, n ∈ y.members.map Prod.fst ↔
        n ∈ (entries.map fun e ↦ d.memberFullName e.1) ∨ n ∈ x.members.map Prod.fst := by
  induction entries generalizing x seen with
  | nil => exact ⟨x, rfl, rfl, by simp⟩
  | cons e entries ih =>
    obtain ⟨m, i⟩ := e
    rw [List.map_cons, SyntaxTree.firstRepeated, enterMethods]
    by_cases hmem : d.memberFullName m ∈ seen
    · rw [if_pos (by simpa using hmem)]
      simp only [lookup_isSome_iff, ← hseen, hmem, ↓reduceIte]
    · rw [if_neg (by simpa using hmem)]
      simp only [lookup_isSome_iff, ← hseen, hmem, ↓reduceIte]
      have hrest := ih { x with
        members := (d.memberFullName m, ⟨typePos, i⟩) :: x.members
        signatures := x.signatures.insert ⟨typePos, m.name, m.parameterTypes⟩ ⟨typePos, i⟩ }
        (show ∀ n, n ∈ d.memberFullName m :: seen ↔ _ by simp [hseen])
      split at hrest
      next => exact hrest
      next =>
        obtain ⟨y, hy, htypes, hmembers⟩ := hrest
        refine ⟨y, hy, htypes, fun n ↦ (hmembers n).trans ?_⟩
        simp only [List.map_cons, List.mem_cons, hseen]
        rw [or_left_comm, or_assoc]

/-- The index is made exactly if the names of a tree are distinct, and fails with the same error. -/
theorem build_eq_checkNames (t : SyntaxTree) : (build t).map (fun _ ↦ ()) = t.checkNames := by
  have hfold {ds : List TypeDecl} {k : Nat} {x : TypeIndex} {types members : List String}
      (htypes : ∀ n, n ∈ types ↔ n ∈ x.types.map Prod.fst)
      (hmembers : ∀ n, n ∈ members ↔ n ∈ x.members.map Prod.fst) :
      ((ds.zipIdx k).foldlM enterType x).map (fun _ ↦ ()) =
        SyntaxTree.checkTypes types members ds := by
    induction ds generalizing k x types members with
    | nil => rfl
    | cons d ds ih =>
      rw [List.zipIdx_cons, List.foldlM_cons, SyntaxTree.checkTypes, enterType]
      by_cases htype : d.fullName ∈ types
      · simp only [lookup_isSome_iff, ← htypes, htype, List.contains_iff_mem, ↓reduceIte]
        rfl
      · simp only [lookup_isSome_iff, ← htypes, htype, List.contains_iff_mem, ↓reduceIte]
        have hmethods := names_enterMethods d k d.methods.zipIdx
          { x with types := (d.fullName, k) :: x.types } hmembers
        have hnames : (d.methods.zipIdx.map fun e ↦ d.memberFullName e.1) =
            d.methods.map d.memberFullName := by
          conv_rhs => rw [← List.zipIdx_map_fst 0 d.methods, List.map_map]
          rfl
        rw [hnames] at hmethods
        cases hrepeated : SyntaxTree.firstRepeated members (d.methods.map d.memberFullName) with
        | some name =>
          rw [hrepeated] at hmethods
          rw [hmethods]
          rfl
        | none =>
          rw [hrepeated] at hmethods
          obtain ⟨y, hy, hytypes, hymembers⟩ := hmethods
          rw [hy]
          refine ih (fun n ↦ ?_) fun n ↦ ?_
          · simp [hytypes, htypes]
          · rw [List.mem_append, hmembers]
            exact (hymembers n).symm
  exact hfold (fun _ ↦ by simp) fun _ ↦ by simp

end TypeIndex

theorem eq_of_nodup_map {α β : Type} {f : α → β} {as : List α} {i j : Nat} (h : (as.map f).Nodup)
    (hi : i < as.length) (hj : j < as.length) (heq : f as[i] = f as[j]) : i = j :=
  (h.of_map f).getElem_inj_iff.1
    (List.inj_on_of_nodup_map h (List.getElem_mem hi) (List.getElem_mem hj) heq)

namespace TypeDecl

variable {d : TypeDecl} {m : MethodDecl} {name : String} {types : List TypeRef} {i : Nat}

def Offered (name : String) (types : List TypeRef) (m : MethodDecl) : Prop :=
  m.parameterTypes = types ∧ name ∈ nameAlternates m.name

theorem offered_of_name (htypes : m.parameterTypes = types) (hname : m.name = name) :
    Offered name types m :=
  ⟨htypes, hname ▸ self_mem_nameAlternates m.name⟩

theorem findMethod_eq_none_iff :
    d.findMethod name types = none ↔ ∀ m ∈ d.methods, ¬ Offered name types m := by
  unfold findMethod findPos
  rw [Option.orElse_eq_or, Option.or_eq_none_iff, List.findIdx?_eq_none_iff,
    List.findIdx?_eq_none_iff]
  constructor
  · intro h m hm hoffered
    simpa [hoffered.1, hoffered.2] using h.2 m hm
  · intro h
    refine ⟨fun m hm ↦ ?_, fun m hm ↦ ?_⟩
    · rw [← Bool.not_eq_true, Bool.and_eq_true, decide_eq_true_eq, decide_eq_true_eq]
      exact fun hown ↦ h m hm (offered_of_name hown.2 hown.1)
    · simpa [Offered] using h m hm

theorem offered_of_findMethod (h : d.findMethod name types = some i) :
    ∃ m, d.methods[i]? = some m ∧ Offered name types m := by
  unfold findMethod findPos at h
  rw [Option.orElse_eq_or, Option.or_eq_some_iff] at h
  rcases h with h | ⟨-, h⟩
  · obtain ⟨hlt, hown, -⟩ := List.findIdx?_eq_some_iff_getElem.1 h
    rw [Bool.and_eq_true, decide_eq_true_eq, decide_eq_true_eq] at hown
    exact ⟨_, List.getElem?_eq_getElem hlt, offered_of_name hown.2 hown.1⟩
  · obtain ⟨hlt, hoffered, -⟩ := List.findIdx?_eq_some_iff_getElem.1 h
    exact ⟨_, List.getElem?_eq_getElem hlt, by simpa [Offered] using hoffered⟩

/-- A method is found under its own name. Another one with this name and these parameter types would
have the same full name. -/
theorem findMethod_of_name (hnodup : (d.methods.map d.memberFullName).Nodup)
    (hm : d.methods[i]? = some m) (htypes : m.parameterTypes = types) (hname : m.name = name) :
    d.findMethod name types = some i := by
  obtain ⟨hlt, hi⟩ := List.getElem?_eq_some_iff.1 hm
  have hfirst : findPos (fun m ↦ m.name = name && m.parameterTypes = types) d.methods = some i := by
    refine List.findIdx?_eq_some_iff_getElem.2 ⟨hlt, by simp [hi, htypes, hname], fun j hj hown ↦ ?_⟩
    rw [Bool.and_eq_true, decide_eq_true_eq, decide_eq_true_eq] at hown
    have hsame : d.memberFullName d.methods[j] = d.memberFullName d.methods[i] := by
      unfold memberFullName MethodDecl.suffix
      rw [hi, hname, htypes, hown.1, hown.2]
    have heq := eq_of_nodup_map hnodup (hj.trans hlt) hlt hsame
    omega
  rw [findMethod, hfirst]
  rfl

theorem findMethod_of_first
    (hnone : ∀ m ∈ d.methods, m.parameterTypes = types → m.name ≠ name)
    (hm : d.methods[i]? = some m) (hoffered : Offered name types m)
    (hfirst : ∀ j m, d.methods[j]? = some m → Offered name types m → i ≤ j) :
    d.findMethod name types = some i := by
  obtain ⟨hlt, hi⟩ := List.getElem?_eq_some_iff.1 hm
  have hown : findPos (fun m ↦ m.name = name && m.parameterTypes = types) d.methods = none := by
    refine List.findIdx?_eq_none_iff.2 fun m hm ↦ ?_
    rw [← Bool.not_eq_true, Bool.and_eq_true, decide_eq_true_eq, decide_eq_true_eq]
    exact fun h ↦ hnone m hm h.2 h.1
  rw [findMethod, hown]
  refine List.findIdx?_eq_some_iff_getElem.2 ⟨hlt, ?_, fun j hj hother ↦ ?_⟩
  · simpa [hi, Offered] using hoffered
  · have hle := hfirst j _ (List.getElem?_eq_getElem (hj.trans hlt)) (by simpa [Offered] using hother)
    omega

end TypeDecl

namespace SyntaxTree

variable {t : SyntaxTree} {target : MemberRef} {h : MemberHandle} {d : TypeDecl} {i : Nat}

/-- A method of the type that a reference names, with the parameter types that it gives. -/
structure Fits (t : SyntaxTree) (target : MemberRef) (h : MemberHandle) : Prop where
  type : (t.types[h.typePos]?.map TypeDecl.fullName) = some target.declaringType
  method : h.methodPos < (t.declaringType h).methods.length
  parameters : (t.method h).parameterTypes = target.parameterTypes

def Offers (t : SyntaxTree) (target : MemberRef) (name : String) (h : MemberHandle) : Prop :=
  t.Fits target h ∧ name ∈ nameAlternates (t.method h).name

theorem nodup_types_of_checkTypes {types members : List String} {ds : List TypeDecl}
    (h : checkTypes types members ds = .ok ()) :
    (ds.map TypeDecl.fullName).Nodup ∧ ∀ d ∈ ds, d.fullName ∉ types := by
  induction ds generalizing types members with
  | nil => simp
  | cons d ds ih =>
    unfold checkTypes at h
    split at h
    · cases h
    next hnew =>
      dsimp only at h
      split at h
      · cases h
      · obtain ⟨hnodup, hout⟩ := ih h
        simp only [List.mem_cons, not_or] at hout
        refine ⟨List.nodup_cons.2 ⟨fun hmem ↦ ?_, hnodup⟩, List.forall_mem_cons.2 ⟨by simpa using hnew,
          fun d' hd' ↦ (hout d' hd').2⟩⟩
        obtain ⟨d', hd', hname⟩ := List.mem_map.1 hmem
        exact (hout d' hd').1 hname

section

variable (hnames : t.checkNames = .ok ())

include hnames

theorem typePosition_eq_some_iff : t.typePosition target.declaringType = some i ↔
    t.types[i]?.map TypeDecl.fullName = some target.declaringType := by
  have hnodup := (nodup_types_of_checkTypes hnames).1
  unfold typePosition findPos
  rw [List.findIdx?_eq_some_iff_getElem, Option.map_eq_some_iff]
  constructor
  · rintro ⟨hlt, hname, -⟩
    exact ⟨_, List.getElem?_eq_getElem hlt, of_decide_eq_true hname⟩
  · rintro ⟨d, hd, hname⟩
    obtain ⟨hlt, rfl⟩ := List.getElem?_eq_some_iff.1 hd
    refine ⟨hlt, decide_eq_true hname, fun j hj hother ↦ ?_⟩
    have heq := eq_of_nodup_map hnodup (hj.trans hlt) hlt ((of_decide_eq_true hother).trans hname.symm)
    omega

theorem nodup_memberFullName (hd : d ∈ t.types) : (d.methods.map d.memberFullName).Nodup :=
  (List.nodup_flatMap.1 (nodup_of_checkTypes hnames).1).1 d hd

theorem resolveCall_eq_some_iff : t.resolveCall target = some h ↔
    t.types[h.typePos]?.map TypeDecl.fullName = some target.declaringType ∧
      ((nameAlternates target.name).findSome? fun name ↦
        (t.declaringType h).findMethod name target.parameterTypes) = some h.methodPos := by
  unfold resolveCall
  simp only [Option.bind_eq_bind, Option.bind_eq_some_iff, Option.pure_def, Option.some_inj,
    typePosition_eq_some_iff hnames]
  constructor
  · rintro ⟨i, hi, d, hd, j, hj, rfl⟩
    refine ⟨hi, ?_⟩
    rwa [declaringType_eq hd]
  · rintro ⟨hi, hj⟩
    obtain ⟨d, hd, -⟩ := Option.map_eq_some_iff.1 hi
    rw [declaringType_eq hd] at hj
    exact ⟨_, hi, d, hd, _, hj, rfl⟩

end

theorem mem_types_declaringType (hi : t.types[h.typePos]?.map TypeDecl.fullName =
    some target.declaringType) : t.declaringType h ∈ t.types := by
  obtain ⟨d, hd, -⟩ := Option.map_eq_some_iff.1 hi
  rw [declaringType_eq hd]
  exact List.mem_of_getElem? hd

theorem getElem?_method (hlt : h.methodPos < (t.declaringType h).methods.length) :
    (t.declaringType h).methods[h.methodPos]? = some (t.method h) := by
  rw [method_eq (List.getElem?_eq_getElem hlt), List.getElem?_eq_getElem hlt]

theorem Fits.offered (hh : t.Fits target h) {name : String} (hname : name ∈
    nameAlternates (t.method h).name) : TypeDecl.Offered name target.parameterTypes (t.method h) :=
  ⟨hh.parameters, hname⟩

theorem Fits.of_offered {m : MethodDecl} {i : Nat} {name : String} (hh : t.Fits target h)
    (hm : (t.declaringType h).methods[i]? = some m)
    (hoffered : TypeDecl.Offered name target.parameterTypes m) :
    t.method ⟨h.typePos, i⟩ = m ∧ t.Offers target name ⟨h.typePos, i⟩ := by
  have hmethod : t.method ⟨h.typePos, i⟩ = m := method_eq hm
  have hlt := (List.getElem?_eq_some_iff.1 hm).1
  exact ⟨hmethod, ⟨hh.type, hlt, by rw [hmethod, hoffered.1]⟩, by rw [hmethod]; exact hoffered.2⟩

theorem resolveCall_of_first (hnames : t.checkNames = .ok ()) {before after : List String}
    {name : String} (hsplit : nameAlternates target.name = before ++ name :: after)
    (hbefore : ∀ other ∈ before, ∀ h, ¬ t.Offers target other h) (hh : t.Fits target h)
    (hfind : (t.declaringType h).findMethod name target.parameterTypes = some h.methodPos) :
    t.resolveCall target = some h := by
  refine (resolveCall_eq_some_iff hnames).2 ⟨hh.type, ?_⟩
  rw [hsplit, List.findSome?_append, List.findSome?_eq_none_iff.2, Option.none_or,
    List.findSome?_cons, hfind]
  intro other hother
  rw [TypeDecl.findMethod_eq_none_iff]
  intro m hm hoffered
  obtain ⟨i, hi⟩ := List.getElem?_of_mem hm
  exact hbefore other hother _ (hh.of_offered hi hoffered).2

theorem offers_of_resolveCall (hnames : t.checkNames = .ok ()) (hr : t.resolveCall target = some h) :
    ∃ name ∈ nameAlternates target.name, t.Offers target name h := by
  obtain ⟨htype, hfind⟩ := (resolveCall_eq_some_iff hnames).1 hr
  obtain ⟨name, hname, hmethod⟩ := List.exists_of_findSome?_eq_some hfind
  obtain ⟨m, hm, hoffered⟩ := TypeDecl.offered_of_findMethod hmethod
  have heq : t.method h = m := by
    unfold method
    rw [List.getD_eq_getElem?_getD, hm, Option.getD_some]
  refine ⟨name, hname, ⟨htype, (List.getElem?_eq_some_iff.1 hm).1, ?_⟩, ?_⟩
  · rw [heq, hoffered.1]
  · rw [heq]
    exact hoffered.2

theorem not_offers_of_resolveCall (hnames : t.checkNames = .ok ())
    (hr : t.resolveCall target = none) {name : String} (hname : name ∈ nameAlternates target.name) :
    ¬ t.Offers target name h := by
  rintro ⟨hh, hoffered⟩
  cases hfind : (nameAlternates target.name).findSome? fun name ↦
      (t.declaringType h).findMethod name target.parameterTypes with
  | none =>
    have hnone := TypeDecl.findMethod_eq_none_iff.1 (List.findSome?_eq_none_iff.1 hfind name hname)
    exact hnone _ (List.mem_of_getElem? (getElem?_method hh.method)) (hh.offered hoffered)
  | some i =>
    have hsome : t.resolveCall target = some ⟨h.typePos, i⟩ :=
      (resolveCall_eq_some_iff hnames).2 ⟨hh.type, hfind⟩
    rw [hr] at hsome
    cases hsome

end SyntaxTree

/-- A call denotes the same method in the index and in the tree, one that offers an alternate of the
name that is called; it denotes none only if no method does. A method with the name itself is the one.
Otherwise the first alternate that is offered decides, and under it the method with this name, or else
the first declared. -/
theorem TypeIndex.resolveCall_exact {t : SyntaxTree} {x : TypeIndex} (hx : build t = .ok x)
    (target : MemberRef) :
    x.resolveCall target = t.resolveCall target ∧
      (∀ h, x.resolveCall target = some h →
        ∃ name ∈ nameAlternates target.name, t.Offers target name h) ∧
      (x.resolveCall target = none →
        ∀ name ∈ nameAlternates target.name, ∀ h, ¬ t.Offers target name h) ∧
      (∀ h, t.Fits target h → (t.method h).name = target.name → x.resolveCall target = some h) ∧
      ∀ before name after, nameAlternates target.name = before ++ name :: after →
        (∀ other ∈ before, ∀ h, ¬ t.Offers target other h) →
        (∀ h, t.Fits target h → (t.method h).name = name → x.resolveCall target = some h) ∧
        ((∀ h, t.Fits target h → (t.method h).name ≠ name) → ∀ h, t.Offers target name h →
          (∀ h', t.Offers target name h' → h.methodPos ≤ h'.methodPos) →
            x.resolveCall target = some h) := by
  have hnames : t.checkNames = .ok () := by
    rw [← build_eq_checkNames, hx]
    rfl
  rw [resolveCall_build hx]
  have hnamed {before after : List String} {name : String}
      (hsplit : nameAlternates target.name = before ++ name :: after)
      (hbefore : ∀ other ∈ before, ∀ h, ¬ t.Offers target other h) (h : MemberHandle)
      (hh : t.Fits target h) (hname : (t.method h).name = name) : t.resolveCall target = some h := by
    refine SyntaxTree.resolveCall_of_first hnames hsplit hbefore hh ?_
    have hmem := SyntaxTree.mem_types_declaringType hh.type
    exact TypeDecl.findMethod_of_name (SyntaxTree.nodup_memberFullName hnames hmem)
      (SyntaxTree.getElem?_method hh.method) hh.parameters hname
  refine ⟨rfl, fun h ↦ SyntaxTree.offers_of_resolveCall hnames, fun hnone name hname h ↦
    SyntaxTree.not_offers_of_resolveCall hnames hnone hname, ?_,
    fun before name after hsplit hbefore ↦ ⟨hnamed hsplit hbefore, fun hnone h hoffers hfirst ↦ ?_⟩⟩
  · obtain ⟨rest, hrest⟩ := nameAlternates_eq_cons target.name
    exact @hnamed [] rest target.name hrest (by simp)
  · obtain ⟨hh, hname⟩ := hoffers
    refine SyntaxTree.resolveCall_of_first hnames hsplit hbefore hh ?_
    refine TypeDecl.findMethod_of_first (fun m hm htypes hown ↦ ?_)
      (SyntaxTree.getElem?_method hh.method) (hh.offered hname) fun j m hm hoffered ↦ ?_
    · obtain ⟨i, hi⟩ := List.getElem?_of_mem hm
      obtain ⟨heq, hfits, -⟩ := hh.of_offered hi (TypeDecl.offered_of_name htypes hown)
      exact hnone _ hfits (heq ▸ hown)
    · exact hfirst _ (hh.of_offered hm hoffered).2

/-- A type with two methods of interfaces, and a method whose name is an alternate of another one. -/
def kernelType : TypeDecl :=
  { fullName := "Demo.Impl"
    methods :=
      [{ name := "Demo.IKernel.Run", parameters := [⟨"x", .i32⟩] },
       { name := "Demo.IOther.Run", parameters := [⟨"x", .i32⟩] },
       { name := "Map`1", parameters := [⟨"v", .bool⟩] },
       { name := "Map", parameters := [⟨"v", .bool⟩] }] }

/-- Of the two methods that offer `Run` the first one is called, and `Map` is the method of that name
also for `Map<T>`. -/
theorem resolveCall_exact_kernelType : ∃ x, TypeIndex.build ⟨[kernelType]⟩ = .ok x ∧
    x.resolveCall ⟨"Demo.Impl", "Run", [.i32]⟩ = some ⟨0, 0⟩ ∧
      x.resolveCall ⟨"Demo.Impl", "Map<T>", [.bool]⟩ = some ⟨0, 3⟩ ∧
      x.resolveCall ⟨"Demo.Impl", "Map", [.bool]⟩ = some ⟨0, 3⟩ := by
  have hnames : (TypeIndex.build ⟨[kernelType]⟩).map (fun _ ↦ ()) = .ok () :=
    (TypeIndex.build_eq_checkNames _).trans rfl
  cases hx : TypeIndex.build ⟨[kernelType]⟩ with
  | error e =>
    rw [hx] at hnames
    cases hnames
  | ok x =>
    have hrun := (TypeIndex.resolveCall_exact hx ⟨"Demo.Impl", "Run", [.i32]⟩).1
    have hgeneric := (TypeIndex.resolveCall_exact hx ⟨"Demo.Impl", "Map<T>", [.bool]⟩).1
    have hmap := (TypeIndex.resolveCall_exact hx ⟨"Demo.Impl", "Map", [.bool]⟩).2.2.2.1 ⟨0, 3⟩
      ⟨by decide, by decide, by decide⟩ (by decide)
    exact ⟨x, rfl, hrun.trans (by decide +kernel), hgeneric.trans (by decide +kernel), hmap⟩

end Fabric
