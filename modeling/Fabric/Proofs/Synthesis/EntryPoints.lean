import Fabric.Proofs.Calls.Recursion
import Fabric.Proofs.Resolution.ArrayKeys
import Fabric.Proofs.Syntax.CallTargets
import Fabric.Proofs.Synthesis.Planned
import Fabric.Synthesis.Program

namespace Fabric

namespace SyntaxTree

variable {t : SyntaxTree}

theorem signatures_foldInitializers (fuel : Nat) (t : SyntaxTree) :
    (foldInitializers fuel t).1.signatures = t.signatures :=
  foldInitializers_induction (P := fun t' ↦ t'.signatures = t.signatures)
    (fun t' ht' ↦ (signatures_mapInitializers _ t').trans ht') fuel rfl

theorem signatures_foldConstants (t : SyntaxTree) : t.foldConstants.1.signatures = t.signatures := by
  let t' := (foldInitializers (t.initializerNodes.length + 1) t).1
  exact (signatures_mapBodies (fun _ body ↦ body.fold t'.constantFields) t').trans
    (signatures_foldInitializers _ t)

theorem signatures_foldArrayLengths (t : SyntaxTree) (arrays : ArrayTable) :
    (t.foldArrayLengths arrays).1.signatures = t.signatures :=
  signatures_mapBodies _ t

theorem checkTypes_congr {ds ds' : List TypeDecl} {types members : List String}
    (h : ds'.map TypeDecl.signature = ds.map TypeDecl.signature) :
    checkTypes types members ds' = checkTypes types members ds := by
  have hnames (d : TypeDecl) : d.methods.map d.memberFullName = d.signature.2.map fun s ↦
      d.signature.1 ++ "." ++ s.1 ++ signatureSuffix (s.2.map Parameter.type) := by
    rw [TypeDecl.signature, List.map_map]
    rfl
  induction ds generalizing ds' types members with
  | nil => rw [List.map_eq_nil_iff.1 h]
  | cons d ds ih =>
    obtain ⟨d', ds', rfl, hd, hds⟩ := List.map_eq_cons_iff.1 h
    have hname : d'.fullName = d.fullName := congrArg Prod.fst hd
    rw [checkTypes, checkTypes, hnames, hnames, hd, hname]
    simp only [ih hds]

theorem checkNames_of_resolve {c : Config} {r : ResolvedTree} (h : t.resolve c = .ok r) :
    r.tree.checkNames = .ok () := by
  unfold resolve at h
  split at h
  · cases h
  next hnames =>
    have hkept : r.tree.signatures = t.signatures := by
      refine ResolvedTree.rounds_induction (P := fun r ↦ r.tree.signatures = t.signatures)
        (fun r _ _ hr _ ↦ ?_) rfl h
      exact (signatures_foldArrayLengths _ _).trans ((signatures_foldConstants r.tree).trans hr)
    rw [← hnames]
    exact checkTypes_congr hkept

theorem Fits.fullName_eq {target : MemberRef} {h : MemberHandle} (hh : t.Fits target h) :
    (t.declaringType h).fullName = target.declaringType := by
  obtain ⟨d, hd, hname⟩ := Option.map_eq_some_iff.1 hh.type
  rw [declaringType_eq hd, hname]

section

variable (hnames : t.checkNames = .ok ()) {d d' : TypeDecl}

include hnames

theorem eq_of_fullName_eq (hd : d ∈ t.types) (hd' : d' ∈ t.types)
    (h : d.fullName = d'.fullName) : d = d' :=
  List.inj_on_of_nodup_map (nodup_types_of_checkTypes hnames).1 hd hd' h

theorem exists_typePosition (hd : d ∈ t.types) :
    ∃ i, t.types[i]? = some d ∧ t.typePosition d.fullName = some i := by
  obtain ⟨i, hi⟩ := List.getElem?_of_mem hd
  refine ⟨i, hi, (@typePosition_eq_some_iff t ⟨d.fullName, "", []⟩ i hnames).2 ?_⟩
  rw [hi, Option.map_some]

theorem findType?_eq_some_iff {name : String} :
    t.findType? name = some d ↔ d ∈ t.types ∧ d.fullName = name := by
  constructor
  · intro h
    exact ⟨List.mem_of_find?_eq_some h, by simpa using List.find?_some h⟩
  · rintro ⟨hd, rfl⟩
    obtain ⟨d', hd'⟩ : ∃ d', t.findType? d.fullName = some d' := by
      rw [← Option.isSome_iff_exists, findType?, List.find?_isSome]
      exact ⟨d, hd, decide_eq_true rfl⟩
    have hname : d'.fullName = d.fullName := by simpa using List.find?_some hd'
    rw [hd', eq_of_fullName_eq hnames (List.mem_of_find?_eq_some hd') hd hname]

end

def ShareAlternate (name name' : String) : Prop :=
  ∃ alternate ∈ nameAlternates name, alternate ∈ nameAlternates name'

theorem methodsNamed_ne_nil_iff {d : TypeDecl} {name : String} :
    d.methodsNamed name ≠ [] ↔ ∃ m ∈ d.methods, ShareAlternate name m.name := by
  have hshare (m : MethodDecl) : (nameAlternates m.name).any (nameAlternates name).contains ↔
      ShareAlternate name m.name := by
    simp [ShareAlternate, and_comm]
  unfold TypeDecl.methodsNamed
  rw [ne_eq, List.map_eq_nil_iff, List.filter_eq_nil_iff]
  simp only [hshare, not_forall, not_not]
  constructor
  · rintro ⟨⟨m, i⟩, hmem, h⟩
    exact ⟨m, List.mem_of_getElem? (List.mem_zipIdx_iff_getElem?.1 hmem), h⟩
  · rintro ⟨m, hm, h⟩
    obtain ⟨i, hi⟩ := List.getElem?_of_mem hm
    exact ⟨(m, i), List.mem_zipIdx_iff_getElem?.2 hi, h⟩

def Implements (t : SyntaxTree) (interface : String) (m : MethodDecl) : Prop :=
  ∃ i ∈ t.types, i.kind = .interfaceType ∧ i.fullName = interface ∧
    ∃ m' ∈ i.methods, m'.parameterTypes = m.parameterTypes ∧ ShareAlternate m.name m'.name

/-- An interface of the tree that the type lists has a method with an alternate in common with the name
of `m` or with one of its alternates. -/
def ImplementsListed (t : SyntaxTree) (d : TypeDecl) (m : MethodDecl) : Prop :=
  ∃ i ∈ t.types, i.kind = .interfaceType ∧ i.fullName ∈ d.interfaces ∧
    ∃ m' ∈ i.methods, ∃ name ∈ nameAlternates m.name, ShareAlternate name m'.name

section

variable (hnames : t.checkNames = .ok ()) {d : TypeDecl} {m : MethodDecl}

include hnames

theorem implementsExplicitly_iff {interface : String} :
    t.implementsExplicitly interface m ↔ t.Implements interface m := by
  unfold implementsExplicitly
  cases hr : t.resolveCall ⟨interface, m.name, m.parameterTypes⟩ with
  | none =>
    refine iff_of_false Bool.false_ne_true ?_
    rintro ⟨i, hi, -, rfl, m', hm', htypes, name, hname, hname'⟩
    obtain ⟨k, hk, -⟩ := exists_typePosition hnames hi
    obtain ⟨j, hj⟩ := List.getElem?_of_mem hm'
    have hdecl : t.declaringType ⟨k, j⟩ = i := declaringType_eq hk
    have hmethod : t.method ⟨k, j⟩ = m' := method_eq (by rw [hdecl, hj])
    have hfits : t.Fits ⟨i.fullName, m.name, m.parameterTypes⟩ ⟨k, j⟩ :=
      ⟨by rw [hk, Option.map_some], by rw [hdecl]; exact (List.getElem?_eq_some_iff.1 hj).1,
        by rw [hmethod, htypes]⟩
    exact not_offers_of_resolveCall hnames hr hname ⟨hfits, by rw [hmethod]; exact hname'⟩
  | some h =>
    obtain ⟨name, hname, hfits, hname'⟩ := offers_of_resolveCall hnames hr
    have hmem := mem_types_declaringType hfits.type
    dsimp only
    rw [decide_eq_true_eq]
    constructor
    · intro hkind
      exact ⟨_, hmem, hkind, hfits.fullName_eq, _,
        List.mem_of_getElem? (getElem?_method hfits.method), hfits.parameters, name, hname, hname'⟩
    · rintro ⟨i, hi, hkind, hi', -⟩
      rwa [eq_of_fullName_eq hnames hmem hi (hfits.fullName_eq.trans hi'.symm)]

theorem implementsByName_iff : t.implementsByName d m ↔ t.ImplementsListed d m := by
  have hnamed {i : TypeDecl} (hi : i ∈ t.types) (name : String) :
      !(t.methodsNamed i.fullName name).isEmpty ↔ ∃ m' ∈ i.methods, ShareAlternate name m'.name := by
    obtain ⟨k, hk, hposition⟩ := exists_typePosition hnames hi
    rw [← methodsNamed_ne_nil_iff, methodsNamed, hposition]
    dsimp only
    rw [List.getD_eq_getElem?_getD, hk, Option.getD_some]
    simp
  rw [implementsByName, List.any_eq_true]
  constructor
  · rintro ⟨interface, hlisted, h⟩
    cases hfound : t.findType? interface with
    | none =>
      rw [hfound] at h
      cases h
    | some i =>
      obtain ⟨hi, rfl⟩ := (findType?_eq_some_iff hnames).1 hfound
      rw [hfound] at h
      dsimp only at h
      rw [Bool.and_eq_true, decide_eq_true_eq, List.any_eq_true] at h
      obtain ⟨hkind, name, hname, hmethod⟩ := h
      obtain ⟨m', hm', hshare⟩ := (hnamed hi name).1 hmethod
      exact ⟨i, hi, hkind, hlisted, m', hm', name, hname, hshare⟩
  · rintro ⟨i, hi, hkind, hlisted, m', hm', name, hname, hshare⟩
    refine ⟨i.fullName, hlisted, ?_⟩
    rw [(findType?_eq_some_iff hnames).2 ⟨hi, rfl⟩]
    dsimp only
    rw [Bool.and_eq_true, decide_eq_true_eq, List.any_eq_true]
    exact ⟨hkind, name, hname, (hnamed hi name).2 ⟨m', hm', hshare⟩⟩

end

/-- A method that may be started from outside: one that implements a method of an interface, explicitly or
as a public method of a public class, or a public virtual method of a public class. -/
structure Startable (t : SyntaxTree) (d : TypeDecl) (m : MethodDecl) : Prop where
  body : m.body.isSome
  kind : d.kind = .classType ∨ d.kind = .structType
  access : match m.explicitInterface with
    | some interface => t.Implements interface m
    | none => m.modifiers.visibility = .pub ∧ d.visibility = .pub ∧ d.kind = .classType ∧
        (m.modifiers.isVirtual ∨ t.ImplementsListed d m)

theorem isEntryPoint_iff (hnames : t.checkNames = .ok ()) {d : TypeDecl} {m : MethodDecl} :
    t.isEntryPoint d m ↔ t.Startable d m := by
  have hkind : d.kind ≠ .interfaceType ↔ d.kind = .classType ∨ d.kind = .structType := by
    cases d.kind <;> simp
  have hstart : t.isEntryPoint d m ↔ m.body.isSome ∧ d.kind ≠ .interfaceType ∧
      match m.explicitInterface with
      | some interface => t.Implements interface m
      | none => m.modifiers.visibility = .pub ∧ d.visibility = .pub ∧ d.kind = .classType ∧
          (m.modifiers.isVirtual ∨ t.ImplementsListed d m) := by
    unfold isEntryPoint
    cases m.explicitInterface with
    | some interface => simp [implementsExplicitly_iff hnames, and_assoc]
    | none => simp [implementsByName_iff hnames, and_assoc]
  rw [hstart, hkind]
  exact ⟨fun ⟨hbody, hclass, haccess⟩ ↦ ⟨hbody, hclass, haccess⟩,
    fun h ↦ ⟨h.body, h.kind, h.access⟩⟩

end SyntaxTree

namespace Program

variable {t : SyntaxTree} {c : Config} {identity : String} {p : Program}

theorem checkNames_of_prepare (hp : prepare t c identity = .ok p) : p.tree.checkNames = .ok () :=
  SyntaxTree.checkNames_of_resolve (resolve_of_prepare hp).1

theorem admits_iff {fullName : String} : p.admits fullName ↔ p.config.entryPointStarts = [] ∨
    ∃ start ∈ p.config.entryPointStarts, start.toList <+: fullName.toList := by
  simp [admits]

/-- Members with different names are put in strictly increasing order. -/
theorem increasing_entryPoints (h : p.NamesDistinct) :
    (p.entryPoints.map p.tree.memberFullName).Pairwise (· < ·) := by
  have hsorted := pairwise_mergeSort_text p.tree.memberFullName (p.tree.handles.filter fun h ↦
    p.tree.isEntryPoint (p.tree.declaringType h) (p.tree.method h) &&
      p.admits (p.tree.memberFullName h))
  have hnodup : (p.entryPoints.map p.tree.memberFullName).Nodup :=
    ((List.mergeSort_perm _ _).map _).nodup_iff.2 ((List.filter_sublist.map _).nodup h)
  rw [List.pairwise_map]
  exact hsorted.imp₂ (fun a b hle hne ↦ Std.lt_of_le_of_ne hle hne) (List.pairwise_map.1 hnodup)

theorem mem_entryPoints {h : MemberHandle} : h ∈ p.entryPoints ↔ h ∈ p.tree.handles ∧
    p.tree.isEntryPoint (p.tree.declaringType h) (p.tree.method h) ∧
      p.admits (p.tree.memberFullName h) := by
  rw [entryPoints, List.mem_mergeSort, List.mem_filter, Bool.and_eq_true]

theorem mem_entryPoints_iff (hnames : p.tree.checkNames = .ok ()) {h : MemberHandle} :
    h ∈ p.entryPoints ↔ ∃ d m, p.tree.types[h.typePos]? = some d ∧
      d.methods[h.methodPos]? = some m ∧ p.tree.Startable d m ∧ p.admits (d.memberFullName m) := by
  rw [mem_entryPoints, SyntaxTree.isEntryPoint_iff hnames, SyntaxTree.mem_handles_iff]
  constructor
  · rintro ⟨⟨d, hd, hlt⟩, hstart, hadmits⟩
    have hdecl := SyntaxTree.declaringType_eq hd
    have hm : d.methods[h.methodPos]? = some (p.tree.method h) := by
      rw [← hdecl] at hlt ⊢
      exact SyntaxTree.getElem?_method hlt
    rw [SyntaxTree.memberFullName, hdecl] at hadmits
    rw [hdecl] at hstart
    exact ⟨d, _, hd, hm, hstart, hadmits⟩
  · rintro ⟨d, m, hd, hm, hstart, hadmits⟩
    have hdecl := SyntaxTree.declaringType_eq hd
    have hmethod : p.tree.method h = m := SyntaxTree.method_eq (by rw [hdecl, hm])
    rw [SyntaxTree.memberFullName, hdecl, hmethod]
    exact ⟨⟨d, hd, (List.getElem?_eq_some_iff.1 hm).1⟩, hstart, hadmits⟩

/-- The entry points of a program are the methods that may be started from outside and whose names start
as the configuration asks, each once and in the order of their full names. A method that implements no
interface explicitly is among them only if it is public. -/
theorem entryPoints_exact (hp : prepare t c identity = .ok p) :
    p.entryPoints.Nodup ∧ (p.entryPoints.map p.tree.memberFullName).Pairwise (· < ·) ∧
    (∀ h, h ∈ p.entryPoints ↔ ∃ d m, p.tree.types[h.typePos]? = some d ∧
      d.methods[h.methodPos]? = some m ∧ p.tree.Startable d m ∧ (c.entryPointStarts = [] ∨
        ∃ start ∈ c.entryPointStarts, start.toList <+: (d.memberFullName m).toList)) ∧
    ∀ h ∈ p.entryPoints, (p.tree.method h).explicitInterface = none →
      (p.tree.method h).modifiers.visibility = .pub := by
  have hnames := checkNames_of_prepare hp
  have hincreasing := increasing_entryPoints (namesDistinct_of_prepare hp)
  obtain ⟨-, rfl⟩ := resolve_of_prepare hp
  refine ⟨?_, hincreasing, fun h ↦ ?_, fun h hh hnone ↦ ?_⟩
  · exact List.Nodup.of_map _ (hincreasing.imp fun hlt ↦ Std.ne_of_lt hlt)
  · simp only [mem_entryPoints_iff hnames, admits_iff]
  · obtain ⟨d, m, hd, hm, hstart, -⟩ := (mem_entryPoints_iff hnames).1 hh
    have hdecl := SyntaxTree.declaringType_eq hd
    have hmethod : p.tree.method h = m := SyntaxTree.method_eq (by rw [hdecl, hm])
    have haccess := hstart.access
    rw [hmethod] at hnone ⊢
    rw [hnone] at haccess
    exact haccess.1

end Program

def kernels : List TypeDecl :=
  let code : Option Stmt := some (.ret 0 (some (.getParameter 0 "x")))
  let x : List Parameter := [⟨"x", .i32⟩]
  [{ fullName := "Demo.IKernel", kind := .interfaceType
     methods := [{ name := "Run", parameters := x, returnType := .i32 }] },
   { fullName := "Demo.Impl", visibility := .pub, interfaces := ["Demo.IKernel"]
     methods :=
      [{ name := "Run", modifiers := { visibility := .pub }, parameters := x, returnType := .i32
         body := code },
       { name := "Demo.IKernel.Run", explicitInterface := some "Demo.IKernel", parameters := x
         returnType := .i32, body := code },
       { name := "Help", modifiers := { isVirtual := true }, parameters := x, returnType := .i32
         body := code }] }]

/-- Of the private methods the one that implements the interface explicitly is selected. -/
theorem Program.entryPoints_exact_kernels :
    let c : Config := { device := "Zynq-7020", entryPointStarts := ["Demo."] }
    ∃ p, prepare (.ofTypes kernels) c "" = .ok p ∧
      (p.tree.method ⟨1, 1⟩).modifiers.visibility = .priv ∧ ⟨1, 1⟩ ∈ p.entryPoints ∧
      (p.tree.method ⟨1, 2⟩).modifiers.visibility = .priv ∧ ⟨1, 2⟩ ∉ p.entryPoints ∧
      p.entryPoints.Nodup ∧ (p.entryPoints.map p.tree.memberFullName).Pairwise (· < ·) := by
  intro c
  have heval : (prepare (.ofTypes kernels) c "").toOption.any fun p ↦
      (p.tree.method ⟨1, 1⟩).modifiers.visibility = .priv ∧
      (⟨1, 1⟩ ∈ p.tree.handles ∧ p.tree.isEntryPoint (p.tree.declaringType ⟨1, 1⟩)
        (p.tree.method ⟨1, 1⟩) ∧ p.admits (p.tree.memberFullName ⟨1, 1⟩)) ∧
      (p.tree.method ⟨1, 2⟩).modifiers.visibility = .priv ∧
      (p.tree.method ⟨1, 2⟩).explicitInterface = none := by decide +kernel
  cases hp : prepare (.ofTypes kernels) c "" with
  | error e =>
    rw [hp] at heval
    cases heval
  | ok p =>
    rw [hp] at heval
    obtain ⟨hprivate, hselected, hhelper, hnone⟩ := of_decide_eq_true heval
    obtain ⟨hnodup, hincreasing, -, hpublic⟩ := entryPoints_exact hp
    refine ⟨p, rfl, hprivate, mem_entryPoints.2 hselected, hhelper, fun hmem ↦ ?_, hnodup,
      hincreasing⟩
    rw [hpublic _ hmem hnone] at hhelper
    cases hhelper

end Fabric
