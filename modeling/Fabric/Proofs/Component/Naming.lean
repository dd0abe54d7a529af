import Fabric.Proofs.Construction.Working
import Fabric.Proofs.Text.Separation
import Fabric.Proofs.Component.Refinement

namespace Fabric

/-- A name of a temporary that a variable with one of the given names can have, too: as its own name,
or as a variant of it. -/
def Ambiguous (own : List String) (name : String) : Prop :=
  ∃ k, name = tempName k ∧ (name ∈ own ∨ 0 < k ∧ "temp" ∈ own)

def IsQualified (name : String) : Prop :=
  2 ≤ name.toList.count '.'

theorem toList_tempName (k : Nat) :
    (tempName k).toList = "temp".toList ++ '.' :: (toString k).toList := by
  unfold tempName
  rw [String.toList_append]
  rfl

theorem dot_notMem_toString (k : Nat) : '.' ∉ (toString k).toList :=
  fun h ↦ absurd (Text.isDigit_of_mem_toString h) (by decide)

theorem append_number_inj {a b : List Char} {m n : Nat}
    (h : a ++ '.' :: (toString m).toList = b ++ '.' :: (toString n).toList) : a = b ∧ m = n := by
  have hreverse := congrArg List.reverse h
  simp only [List.reverse_append, List.reverse_cons, List.append_assoc, List.singleton_append]
    at hreverse
  have hdigits (k : Nat) : ∀ x ∈ (toString k).toList.reverse, x ≠ '.' := by
    rintro x hx rfl
    exact dot_notMem_toString k (List.mem_reverse.1 hx)
  obtain ⟨hnumbers, hnames⟩ := append_cons_inj (p := (· ≠ '.')) (hdigits m) (hdigits n)
    (not_not.2 rfl) (not_not.2 rfl) hreverse
  refine ⟨List.reverse_injective (List.cons.inj hnames).2, Text.toString_injective ?_⟩
  exact String.toList_inj.1 (List.reverse_injective hnumbers)

theorem not_isQualified_tempName (k : Nat) : ¬IsQualified (tempName k) := by
  unfold IsQualified
  rw [toList_tempName, List.count_append, List.count_cons_self,
    List.count_eq_zero.2 (dot_notMem_toString k)]
  decide

theorem IsQualified.append {name : String} (h : IsQualified name) (more : String) :
    IsQualified (name ++ more) := by
  unfold IsQualified at h ⊢
  rw [String.toList_append, List.count_append]
  omega

/-- A variant of a name is the name of a temporary only if the name clashes with it. -/
theorem ambiguous_of_variant {own : List String} {x : String} (hx : x ∈ own) {n k : Nat}
    (h : Draft.variant x n = tempName k) : Ambiguous own (tempName k) := by
  cases n with
  | zero =>
    obtain rfl : x = tempName k := h
    exact ⟨k, rfl, .inl hx⟩
  | succ n =>
    have heq : Draft.variant x (n + 1) = x ++ "." ++ toString (n + 1) := rfl
    have hlists := congrArg String.toList (heq.symm.trans h)
    rw [toList_tempName, String.toList_append, String.toList_append, List.append_assoc] at hlists
    obtain ⟨hname, rfl⟩ := append_number_inj hlists
    rw [String.toList_inj.1 hname] at hx
    exact ⟨n + 1, rfl, .inr ⟨n.succ_pos, hx⟩⟩

inductive Origin (own : List String) (temporaries : Nat) : String → Prop
  | temporary {k : Nat} : k < temporaries → Origin own temporaries (tempName k)
  | own {x : String} (n : Nat) : x ∈ own → Origin own temporaries (Draft.variant x n)
  | qualified {name : String} : IsQualified name → Origin own temporaries name

namespace Origin

variable {own : List String} {m n : Nat} {name : String}

theorem mono (h : Origin own m name) (hle : m ≤ n) : Origin own n name := by
  cases h with
  | temporary hk => exact .temporary (hk.trans_le hle)
  | own k hx => exact .own k hx
  | qualified hq => exact .qualified hq

/-- A temporary that is not taken yet has a name of its own, unless a variable clashes with it. -/
theorem ambiguous (h : Origin own n name) {k : Nat} (hle : n ≤ k) (heq : name = tempName k) :
    Ambiguous own name := by
  cases h with
  | temporary hk => exact absurd (tempName_inj heq) (by omega)
  | own j hx =>
    rw [heq]
    exact ambiguous_of_variant hx heq
  | qualified hq =>
    rw [heq] at hq
    exact absurd hq (not_isQualified_tempName k)

end Origin

namespace Draft

structure Named (own : List String) (d : Draft) : Prop where
  qualifier : d.frame.qualifier = "" ∨ IsQualified d.frame.qualifier
  origin : ∀ x ∈ d.declarations, Origin own d.temporaries x.name
  distinct : (d.declarations.map Declaration.name).Pairwise fun a b ↦ a = b → Ambiguous own a
  /-- A variable that is in scope is no temporary. -/
  bound : ∀ x ∈ d.frame.locals, ∀ name type, x.2 = .variable name type → Origin own 0 name

theorem Named.distinct_append {own : List String} {d : Draft} (h : d.Named own) {new : Declaration}
    (hnew : ∀ x ∈ d.declarations, x.name = new.name → Ambiguous own x.name) :
    ((d.declarations ++ [new]).map Declaration.name).Pairwise fun a b ↦ a = b → Ambiguous own a := by
  rw [List.map_append, List.pairwise_append]
  refine ⟨h.distinct, List.pairwise_singleton _ _, ?_⟩
  intro a ha b hb heq
  obtain ⟨x, hx, rfl⟩ := List.mem_map.1 ha
  exact hnew x hx (heq.trans (List.mem_singleton.1 hb))

/-- A change of a draft that keeps the names in order. -/
structure Names (own : List String) (d d' : Draft) : Prop where
  qualifier : d'.frame.qualifier = d.frame.qualifier
  named : d.Named own → d'.Named own

variable {own : List String} {d d' d'' : Draft}

namespace Names

theorem refl (d : Draft) : Names own d d := ⟨rfl, id⟩

theorem trans (h : Names own d d') (h' : Names own d' d'') : Names own d d'' :=
  ⟨h'.qualifier.trans h.qualifier, h'.named ∘ h.named⟩

theorem same (h : d.SameNames d') : Names own d d' := by
  refine ⟨h.qualifier, fun hn ↦ ⟨?_, ?_, ?_, ?_⟩⟩
  · rw [h.qualifier]
    exact hn.qualifier
  · rw [h.declarations, h.temporaries]
    exact hn.origin
  · rw [h.declarations]
    exact hn.distinct
  · rw [h.locals]
    exact hn.bound

theorem setResult (d : Draft) (id : NodeId) (value : Option Lowered) :
    Names own d (d.setResult id value) :=
  ⟨rfl, fun hn ↦ ⟨hn.qualifier, hn.origin, hn.distinct, hn.bound⟩⟩

theorem temporary (d : Draft) (type : HwType) (comment : String) :
    Names own d (d.temporary type comment).2 := by
  refine ⟨rfl, fun hn ↦ ⟨hn.qualifier, ?_, ?_, hn.bound⟩⟩
  · intro x hx
    rcases List.mem_append.1 hx with hx | hx
    · exact (hn.origin x hx).mono (Nat.le_succ _)
    · obtain rfl := List.mem_singleton.1 hx
      exact .temporary (Nat.lt_succ_self d.temporaries)
  · exact hn.distinct_append fun x hx heq ↦ (hn.origin x hx).ambiguous (Nat.le_refl _) heq

theorem bind (name : String) {b : Binding}
    (hb : ∀ x type, b = .variable x type → d.Named own → Origin own 0 x) :
    Names own d (d.bind name b) := by
  refine ⟨rfl, fun hn ↦ ⟨hn.qualifier, hn.origin, hn.distinct, ?_⟩⟩
  intro x hx y type heq
  rcases List.mem_cons.1 hx with rfl | hx
  · exact hb y type heq hn
  · exact hn.bound x hx y type heq

theorem withLocals (h : Names own d d') : Names own d (d'.withLocals d.frame.locals) :=
  ⟨h.qualifier, fun hn ↦
    have hn' := h.named hn
    ⟨hn'.qualifier, hn'.origin, hn'.distinct, hn.bound⟩⟩

theorem qualified_enterCall (d : Draft) (callee simpleName : String) (returnType : Option HwType)
    (returnVariable : Option String) :
    IsQualified (d.enterCall callee simpleName returnType returnVariable).frame.qualifier := by
  have heq : (d.enterCall callee simpleName returnType returnVariable).frame.qualifier =
      simpleName ++ "." ++ toString (d.expansions + 1) ++ "." := rfl
  unfold IsQualified
  rw [heq]
  simp only [String.toList_append, List.count_append]
  have hdot : ".".toList.count '.' = 1 := rfl
  omega

end Names

theorem firstVariant_eq (d : Draft) (base : String) (type : HwType) (tries n : Nat) :
    ∃ k, d.firstVariant base type tries n = variant base k := by
  induction tries generalizing n with
  | zero => exact ⟨n, rfl⟩
  | succ tries ih =>
    unfold firstVariant
    split
    · exact ⟨n, rfl⟩
    · exact ih (n + 1)

theorem variant_append (qualifier : String) (h : IsQualified qualifier) (name : String) (n : Nat) :
    IsQualified (variant (qualifier ++ name) n) := by
  cases n with
  | zero => exact h.append name
  | succ n =>
    unfold variant
    exact ((h.append name).append _).append _

theorem origin_declare (hn : d.Named own) {name : String}
    (hown : d.frame.qualifier = "" → name ∈ own) (type : HwType) (comment : String) :
    Origin own 0 (d.declare name type comment).1 := by
  have hchosen : (d.declare name type comment).1 =
      d.firstVariant (d.frame.qualifier ++ name) type d.declarations.length 0 := by
    unfold declare
    dsimp only
    split <;> rfl
  obtain ⟨k, hk⟩ := d.firstVariant_eq (d.frame.qualifier ++ name) type d.declarations.length 0
  rw [hchosen, hk]
  rcases hn.qualifier with hq | hq
  · rw [hq, String.empty_append]
    exact .own k (hown hq)
  · exact .qualified (variant_append _ hq name k)

theorem names_declare {name : String} (hown : d.frame.qualifier = "" → name ∈ own) (type : HwType)
    (comment : String) : Names own d (d.declare name type comment).2 := by
  have horigin (hn : d.Named own) := d.origin_declare hn hown type comment
  unfold declare at horigin ⊢
  dsimp only at horigin ⊢
  split at horigin
  next hnone =>
    refine ⟨rfl, fun hn ↦ ⟨hn.qualifier, ?_, ?_, hn.bound⟩⟩
    · intro x hx
      rcases List.mem_append.1 hx with hx | hx
      · exact hn.origin x hx
      · obtain rfl := List.mem_singleton.1 hx
        exact (horigin hn).mono (Nat.zero_le _)
    · refine hn.distinct_append fun x hx heq ↦ ?_
      have hfound := List.find?_eq_none.1 (Option.map_eq_none_iff.1 hnone) x
        (List.mem_reverse.2 hx)
      exact absurd heq (by simpa using hfound)
  next => exact .refl d

end Draft

namespace Lowering

variable {l : Lowering} {expand : Expansion} {own : List String} {d d' : Draft}

theorem names_declareBind {name : String} (hown : d.frame.qualifier = "" → name ∈ own)
    (type : HwType) (comment : String) :
    d.Names own ((d.declare name type comment).2.bind name
      (.variable (d.declare name type comment).1 type)) := by
  refine ⟨(Draft.names_declare hown type comment).qualifier, fun hn ↦ ?_⟩
  have hn' := (Draft.names_declare hown type comment).named hn
  refine (Draft.Names.bind name fun x t heq _ ↦ ?_).named hn'
  obtain ⟨rfl, -⟩ := Binding.variable.inj heq
  exact Draft.origin_declare hn hown type comment

theorem names_of_works {nodes : List Expr} (h : l.Works nodes own d d') : d.Names own d' := by
  induction h with
  | same hs => exact .same hs
  | trans _ _ ih ih' => exact ih.trans ih'
  | temporary d type comment => exact .temporary d type comment
  | declare type comment hown => exact names_declareBind hown type comment
  | index d name value =>
    refine .bind name fun x type heq _ ↦ ?_
    cases heq
  | restore _ ih => exact ih.withLocals
  | call => exact .setResult _ _ _
  | guarded _ _ _ _ ih => exact ih.trans (.setResult _ _ _)
  | @expanded d d' callee simpleName returnType returnVariable _ ih =>
    -- The variables of the callee are qualified, and those around the call are in scope again.
    have hq := Draft.Names.qualified_enterCall d callee simpleName returnType returnVariable
    refine ⟨rfl, fun hn ↦ ?_⟩
    have hn' := ih.named ⟨.inr hq, hn.origin, hn.distinct, List.forall_mem_nil _⟩
    exact ⟨hn.qualifier, hn'.origin, hn'.distinct, hn.bound⟩

theorem names_takeParameters {parameters : List ComponentPin} {d : Draft}
    (hown : ∀ p ∈ parameters, p.name ∈ own) :
    d.Names own (parameters.foldl Draft.takeParameter d) := by
  induction parameters generalizing d with
  | nil => exact .refl d
  | cons p rest ih =>
    obtain ⟨hp, hrest⟩ := List.forall_mem_cons.1 hown
    have htake : d.Names own (d.takeParameter p) :=
      (names_declareBind (fun _ ↦ hp) p.type _).trans (.same ⟨rfl, rfl, rfl, rfl, rfl⟩)
    exact htake.trans (ih hrest)

theorem named_begin {member : String} {returnType : Option HwType}
    {parameters : List ComponentPin} (hown : ∀ p ∈ parameters, p.name ∈ own) :
    ((Draft.empty member returnType).begin parameters).Named own := by
  rw [Draft.begin_eq]
  refine (names_takeParameters hown).named ⟨.inl rfl, ?_, .nil, ?_⟩
  · exact List.forall_mem_nil _
  · exact List.forall_mem_nil _

theorem named_body {parameters : List ComponentPin} {returnType : Option HwType} {code : Stmt}
    (hcode : (l.program.tree.method l.member.handle).body = some code)
    (hparameters : (l.program.tree.method l.member.handle).parameters.mapM l.pin = .ok parameters)
    (h : l.body code ((Draft.empty l.member.fullName returnType).begin parameters) = .ok d) :
    d.Named l.ownNames := by
  have hpins : parameters.map ComponentPin.name =
      (l.program.tree.method l.member.handle).parameters.map Parameter.name := by
    refine map_eq_of_forall₂ ((Synthesis.forall₂_of_mapM hparameters).imp fun p q hpin ↦ ?_)
    obtain ⟨type, -, hpin⟩ := Synthesis.bind_eq_ok.1 hpin
    obtain rfl := Except.ok.inj hpin
    rfl
  have hown : ∀ p ∈ parameters, p.name ∈ l.ownNames := by
    intro p hp
    refine List.mem_append_left _ ?_
    rw [← hpins]
    exact List.mem_map_of_mem hp
  exact (names_of_works (works_body hcode h)).named (named_begin hown)

end Lowering

namespace Lowering

variable {l : Lowering}

/-- Two variables of a component have one name only if it is that of a temporary and the member uses
such a name, or `temp`, itself; and otherwise no variable in scope has the name of a temporary. -/
theorem distinct_declarations {c : Component} (h : l.component = .ok c) :
    ((c.declarations.map Declaration.name).Pairwise fun a b ↦ a = b → Ambiguous l.ownNames a) ∧
      ∀ code d, (l.program.tree.method l.member.handle).body = some code →
        l.body code ((Draft.empty l.member.fullName c.returnType).begin c.parameters) = .ok d →
        ∀ x ∈ d.frame.locals, ∀ name type, x.2 = .variable name type →
          ∀ k, name = tempName k → Ambiguous l.ownNames name := by
  obtain ⟨code, d, hcode, hparameters, -, hbody, hdeclarations, -, -⟩ := component_eq h
  refine ⟨?_, fun code' d' hcode' hbody' x hx name type hbound k hname ↦ ?_⟩
  · rw [hdeclarations]
    exact (named_body hcode hparameters hbody).distinct
  · have horigin := (named_body hcode' hparameters hbody').bound x hx name type hbound
    exact horigin.ambiguous (Nat.zero_le k) hname

end Lowering

def redeclaring (name : String) : List TypeDecl :=
  let number : TypeRef := .int 32 true
  let c : Expr := .getParameter 0 "c"
  let x : Expr := .getParameter 0 "x"
  let choice (n : Int64) : Expr := .conditional 0 c x (.literal 0 (.int n 32 true))
  [{ fullName := "Math"
     methods :=
      [{ name := "Pick", parameters := [⟨"c", .bool⟩, ⟨"x", number⟩], returnType := number
         body := some (.block 0
          [.block 0 [.declare 0 name number (some (.call 0 ⟨"Math", "Same", [number]⟩ [x]))],
           .block 0 [.declare 0 name (.int 64 true) (some x)],
           .assign 0 (.toParameter "x") (choice 1),
           .ret 0 (some (choice 2))]) },
       { name := "Same", parameters := [⟨"y", number⟩], returnType := number
         body := some (.ret 0 (some (.getParameter 0 "y"))), modifiers := { inlineHint := true } }] }]

def redeclarer (name : String) : Synthesis Lowering :=
  Lowering.ofTypes (redeclaring name) { device := "Zynq-7020" } [⟨0, 0⟩] "Math.Pick(bool,i32)"

theorem distinct_declarations_redeclarer : ∃ (l : Lowering) (c : Component),
    l.component = .ok c ∧ l.ownNames = ["c", "x", "z", "z"] ∧
      c.declarations.map Declaration.name =
        ["c", "x", "temp.0", "Same.1.y", "z", "z.1", "temp.1", "temp.2"] ∧
      (c.declarations.map Declaration.name).Pairwise fun a b ↦
        a = b → Ambiguous ["c", "x", "z", "z"] a := by
  have hcheck : Synthesis.check (redeclarer "z" >>= fun l ↦ l.component >>= fun c ↦ .ok (l, c))
      (fun r ↦ r.1.ownNames = ["c", "x", "z", "z"] ∧ r.2.declarations.map Declaration.name =
        ["c", "x", "temp.0", "Same.1.y", "z", "z.1", "temp.1", "temp.2"]) = true := by
    decide +kernel
  obtain ⟨⟨l, c⟩, hr, hcheck⟩ := Synthesis.check_eq_true.1 hcheck
  obtain ⟨l, -, hr⟩ := Synthesis.bind_eq_ok.1 hr
  obtain ⟨c, hc, hr⟩ := Synthesis.bind_eq_ok.1 hr
  obtain ⟨rfl, rfl⟩ := Prod.mk.inj (Except.ok.inj hr)
  obtain ⟨hown, hnames⟩ := of_decide_eq_true hcheck
  refine ⟨l, c, hc, hown, hnames, ?_⟩
  rw [← hown]
  exact (Lowering.distinct_declarations hc).1

/-- The second variant of a variable `temp` and a temporary are two variables of one name. -/
theorem exists_repeated_temp : ∃ (l : Lowering) (c : Component),
    l.Planned ∧ l.component = .ok c ∧ ¬(c.declarations.map Declaration.name).Nodup ∧
      (c.declarations.map Declaration.name).count "temp.1" = 2 := by
  have hsize : (SyntaxTree.ofTypes (redeclaring "temp")).ids.length ≤ 2 ^ 32 := by decide +kernel
  have hcheck : Synthesis.check (redeclarer "temp" >>= Lowering.component)
      (fun c ↦ (c.declarations.map Declaration.name).count "temp.1" = 2) = true := by
    decide +kernel
  obtain ⟨c, hc, hcount⟩ := Synthesis.check_eq_true.1 hcheck
  obtain ⟨l, hl, hc⟩ := Synthesis.bind_eq_ok.1 hc
  have hcount := of_decide_eq_true hcount
  refine ⟨l, c, Lowering.planned_ofTypes hsize hl, hc, fun hnodup ↦ ?_, hcount⟩
  have hle := List.nodup_iff_count_le_one.1 hnodup "temp.1"
  omega

end Fabric
