import Fabric.Calls.Plan
import Fabric.Lowering.Member
import Fabric.Proofs.Construction.Arguments
import Fabric.Proofs.Resolution.Basic
import Fabric.Proofs.Syntax.Parents

namespace Fabric

open scoped List

namespace SyntaxTree

variable {t : SyntaxTree} {h : MemberHandle}

theorem declaringType_of_mem_handles (hh : h ∈ t.handles) :
    t.declaringType h ∈ t.types ∧ t.method h ∈ (t.declaringType h).methods := by
  obtain ⟨d, hd, hm⟩ := mem_handles_iff.1 hh
  obtain rfl := declaringType_eq hd
  rw [method_eq (List.getElem?_eq_getElem hm)]
  exact ⟨List.mem_of_getElem? hd, List.getElem_mem hm⟩

theorem exists_type_of_mem_handles (hh : h ∈ t.handles) :
    ∃ d ∈ t.types, t.method h ∈ d.methods :=
  ⟨_, declaringType_of_mem_handles hh⟩

theorem stmtEntries_sublist (hh : h ∈ t.handles) {s : Stmt} (hs : (t.method h).body = some s) :
    ParentIndex.stmtEntries (t.method h).id s <+ (ParentIndex.ofTree t).entries := by
  obtain ⟨d, hd, hmethod⟩ := exists_type_of_mem_handles hh
  have hbody : ParentIndex.stmtEntries (t.method h).id s <+
      ParentIndex.methodEntries d.id (t.method h) := by
    rw [ParentIndex.methodEntries, hs, ParentIndex.optionEntries]
    exact List.sublist_cons_self _ _
  have hmethods : ParentIndex.methodEntries d.id (t.method h) <+ ParentIndex.typeEntries d :=
    ((ParentIndex.sublist_flatMap hmethod).trans (List.sublist_append_right _ _)).cons _
  exact (hbody.trans hmethods).trans (ParentIndex.sublist_flatMap hd)

theorem map_memberFullName_handles (t : SyntaxTree) :
    t.handles.map t.memberFullName = t.memberNames := by
  have htype {d : TypeDecl} {i : Nat} (hd : t.types[i]? = some d) :
      ((List.range d.methods.length).map fun j ↦ (⟨i, j⟩ : MemberHandle)).map t.memberFullName =
        d.methods.map d.memberFullName := by
    have hdecl (j : Nat) : t.declaringType ⟨i, j⟩ = d := declaringType_eq hd
    apply List.ext_getElem
    · simp
    · intro j hj _
      have hj : j < d.methods.length := by simpa using hj
      simp [memberFullName, method, hdecl, hj]
  unfold handles memberNames
  rw [List.map_flatMap]
  have hzip : t.types.zipIdx.flatMap (fun x ↦ x.1.methods.map x.1.memberFullName) =
      t.types.flatMap fun d ↦ d.methods.map d.memberFullName := by
    rw [← List.flatMap_map Prod.fst fun d : TypeDecl ↦ d.methods.map d.memberFullName,
      List.zipIdx_map_fst]
  rw [← hzip]
  exact List.flatMap_congr fun x hx ↦ htype (List.mem_zipIdx_iff_getElem?.1 hx)

end SyntaxTree

namespace Program

variable {p : Program}

def NamesDistinct (p : Program) : Prop :=
  (p.tree.handles.map p.tree.memberFullName).Nodup

/-- A call belongs to the statement that has the expression in which it stands. -/
theorem callGroup_eq (hn : p.tree.ids.Nodup) {d : TypeDecl} (hd : d ∈ p.tree.types)
    {m : MethodDecl} (hm : m ∈ d.methods) {body s : Stmt} (hbody : m.body = some body)
    (hs : s ∈ body.nodes) {e : Expr} (he : e ∈ s.ownNodes) : p.callGroup e.id = some s.id := by
  obtain ⟨between, above, hkind, hnode⟩ := TypeDecl.Has.of_ownNodes hm hbody hs he
  have hnone : between.find? (fun a ↦ a.kind = .statement) = none := by
    refine List.find?_eq_none.2 fun a ha ↦ ?_
    simp [hkind a ha]
  refine (hnode.enclosing_eq hn hd .statement).trans ?_
  rw [List.find?_append, hnone, Option.none_or]
  rfl

theorem callsGrouped (hn : p.tree.ids.Nodup) : p.CallsGrouped := by
  intro h hh s hs t ht e he c hc _
  obtain ⟨d, hd, hm⟩ := SyntaxTree.exists_type_of_mem_handles hh
  exact callGroup_eq hn hd hm hs ht (List.mem_flatMap.2 ⟨e, he, hc⟩)

end Program

theorem Program.resolve_of_prepare {p : Program} {t : SyntaxTree} {config : Config} {identity : String}
    (hp : Program.prepare t config identity = .ok p) :
    t.resolve config = .ok ⟨p.tree, p.arrays⟩ ∧ p.config = config := by
  unfold Program.prepare at hp
  obtain ⟨timing, -, hp⟩ := Synthesis.bind_eq_ok.1 hp
  obtain ⟨r, hr, hp⟩ := Synthesis.bind_eq_ok.1 hp
  obtain rfl := Except.ok.inj hp
  refine ⟨?_, rfl⟩
  cases hx : t.resolve config with
  | error e =>
    rw [hx] at hr
    cases hr
  | ok x =>
    rw [hx] at hr
    obtain rfl := Except.ok.inj hr
    rfl

theorem Program.namesDistinct_of_prepare {p : Program} {t : SyntaxTree} {config : Config}
    {identity : String} (hp : Program.prepare t config identity = .ok p) : p.NamesDistinct := by
  unfold Program.NamesDistinct
  rw [SyntaxTree.map_memberFullName_handles]
  exact (SyntaxTree.derives_resolve (resolve_of_prepare hp).1).2

/-- A program that was prepared from a tree of no more nodes than there are numbers has different
numbers for its nodes and different names for its members. -/
theorem Program.distinct_of_prepare {p : Program} {types : List TypeDecl} {config : Config} {identity : String}
    (hsize : (SyntaxTree.ofTypes types).ids.length ≤ 2 ^ 32)
    (hp : Program.prepare (.ofTypes types) config identity = .ok p) :
    p.tree.ids.Nodup ∧ p.NamesDistinct := by
  obtain ⟨hderives, -⟩ := SyntaxTree.derives_resolve (resolve_of_prepare hp).1
  exact ⟨hderives.ids.nodup (SyntaxTree.nodup_ids_ofTypes types hsize), namesDistinct_of_prepare hp⟩

/-- A member that is planned for a program of no more nodes than there are numbers. -/
def Lowering.Planned (l : Lowering) : Prop :=
  ∃ types config identity entries, (SyntaxTree.ofTypes types).ids.length ≤ 2 ^ 32 ∧
    Program.prepare (.ofTypes types) config identity = .ok l.program ∧
    CallPlan.ofProgram l.program entries = .ok l.plan ∧ l.member ∈ l.plan.components

namespace Lowering.Planned

variable {l : Lowering}

theorem distinct (hl : l.Planned) : l.program.tree.ids.Nodup ∧ l.program.NamesDistinct := by
  obtain ⟨types, config, identity, entries, hsize, hprogram, -⟩ := hl
  exact Program.distinct_of_prepare hsize hprogram

theorem callsGrouped (hl : l.Planned) : l.program.CallsGrouped :=
  Program.callsGrouped hl.distinct.1

theorem namesDistinct (hl : l.Planned) : l.program.NamesDistinct :=
  hl.distinct.2

end Lowering.Planned

def Synthesis.check {α : Type} (x : Synthesis α) (p : α → Bool) : Bool :=
  match x with
  | .ok a => p a
  | .error _ => false

theorem Synthesis.check_eq_true {α : Type} {x : Synthesis α} {p : α → Bool} :
    Synthesis.check x p = true ↔ ∃ a, x = .ok a ∧ p a = true := by
  cases x with
  | error e => exact ⟨nofun, nofun⟩
  | ok a => exact ⟨fun h ↦ ⟨a, rfl, h⟩, fun ⟨_, ha, h⟩ ↦ Except.ok.inj ha ▸ h⟩

theorem Config.validate_eq_ok {config : Config} (h : config.validate.isOk) :
    config.validate = .ok () := by
  cases hv : config.validate with
  | ok => rfl
  | error e =>
    rw [hv] at h
    cases h

namespace Lowering

/-- Plans a program from its entry points up to the member with the given name. -/
def ofTypes (types : List TypeDecl) (config : Config) (entries : List MemberHandle)
    (name : String) : Synthesis Lowering := do
  let p ← Program.prepare (.ofTypes types) config ""
  let plan ← CallPlan.ofProgram p entries
  match plan.member? name with
  | some m => .ok ⟨p, plan, m⟩
  | none => .error .noEntryPoints

theorem planned_ofTypes {types : List TypeDecl} {config : Config} {entries : List MemberHandle}
    {name : String} {l : Lowering} (hsize : (SyntaxTree.ofTypes types).ids.length ≤ 2 ^ 32)
    (h : ofTypes types config entries name = .ok l) : l.Planned := by
  obtain ⟨p, hp, h⟩ := Synthesis.bind_eq_ok.1 h
  obtain ⟨plan, hplan, h⟩ := Synthesis.bind_eq_ok.1 h
  split at h
  next m hm =>
    obtain rfl := Except.ok.inj h
    refine ⟨types, config, "", entries, hsize, hp, hplan, ?_⟩
    exact List.mem_map_of_mem (mem_of_lookup hm)
  next => exact nomatch h

end Lowering

def pairedCalls : List TypeDecl :=
  let number : TypeRef := .int 32 true
  let half (e : Expr) : Expr := .call 0 ⟨"Math", "Half", [number]⟩ [e]
  [{ fullName := "Math"
     methods :=
      [{ name := "Shrink", parameters := [⟨"x", number⟩], returnType := number
         body := some (.block 0
          [.whileLoop 0 (.binary 0 .gt (.getParameter 0 "x") (.literal 0 (.i32 10)))
            (.assign 0 (.toParameter "x")
              (.binary 0 .add (half (.getParameter 0 "x")) (half (.literal 0 (.i32 7))))),
          .ret 0 (some (.getParameter 0 "x"))]) },
       { name := "Half", parameters := [⟨"y", number⟩], returnType := number
         body := some (.ret 0 (some
          (.binary 0 .div (.getParameter 0 "y") (.literal 0 (.i32 3))))) }] }]

def pairedCaller : Synthesis Lowering :=
  Lowering.ofTypes pairedCalls { device := "Zynq-7020" } [⟨0, 0⟩] "Math.Shrink(i32)"

theorem exists_pairedCaller : ∃ (l : Lowering) (c : Component),
    l.Planned ∧ l.component = .ok c ∧ c.states.length = 9 := by
  have hsize : (SyntaxTree.ofTypes pairedCalls).ids.length ≤ 2 ^ 32 := by decide +kernel
  have hcheck : Synthesis.check (pairedCaller >>= Lowering.component)
      (fun c ↦ c.states.length = 9) = true := by decide +kernel
  obtain ⟨c, hc, hlength⟩ := Synthesis.check_eq_true.1 hcheck
  obtain ⟨l, hl, hc⟩ := Synthesis.bind_eq_ok.1 hc
  exact ⟨l, c, Lowering.planned_ofTypes hsize hl, hc, of_decide_eq_true hlength⟩

end Fabric
