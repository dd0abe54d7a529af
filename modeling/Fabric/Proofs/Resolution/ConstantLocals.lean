import Mathlib.Logic.Relation
import Fabric.Dictionary
import Fabric.Proofs.Resolution.Folding
import Fabric.Proofs.Syntax.Nodes

namespace Fabric

universe u

variable {A : Type u}

/-- The literal that a variable of the given type holds after a literal is stored in it. -/
def Literal.stored (type : TypeRef) (l : Literal) : Option Literal :=
  if l.type = type then some l else l.evalCast type

theorem Literal.type_of_evalCast {type : TypeRef} {l w : Literal} (h : evalCast type l = some w) :
    w.type = type := by
  cases type with
  | int width signed =>
    cases l with
    | int => rw [← Option.some.inj h]; rfl
    | bool => cases h
  | bool =>
    cases l with
    | bool => rw [← Option.some.inj h]; rfl
    | int => cases h
  | _ => cases l <;> cases h

theorem Literal.stored_eq_iff {type : TypeRef} {l w : Literal} (h : l.stored type = some w) :
    w = l ↔ l.type = type := by
  unfold stored at h
  split at h
  next heq => exact ⟨fun _ ↦ heq, fun _ ↦ (Option.some.inj h).symm⟩
  next hne =>
    refine ⟨?_, fun heq ↦ absurd heq hne⟩
    rintro rfl
    exact absurd (type_of_evalCast h) hne

def Value.stored (type : TypeRef) : Value A → Option (Value A)
  | .literal l => (l.stored type).map .literal
  | .object a => some (.object a)

def AssignTarget.variable? : AssignTarget → Option String
  | .toLocal name | .toParameter name => some name
  | .toField _ => none

abbrev Variables (A : Type u) := String → Option (TypeRef × Value A)

namespace Variables

def set (vars : Variables A) (name : String) (type : TypeRef) (v : Value A) : Variables A :=
  fun x ↦ if x = name then some (type, v) else vars x

def AgreeOff (names : List String) (vars vars' : Variables A) : Prop :=
  ∀ x, x ∉ names → vars' x = vars x

def SameLiterals (vars vars' : Variables A) : Prop :=
  ∀ x type l, vars x = some (type, .literal l) → vars' x = some (type, .literal l)

end Variables

/-- In the environment, locals and parameters are the given variables. -/
structure Environment.Reads (env : Environment A) (vars : Variables A) : Prop where
  locals : ∀ x, env.locals x = (vars x).map Prod.snd
  parameters : ∀ x, env.parameters x = (vars x).map Prod.snd

/-- What is left to do of a body: a statement, the head of a loop with its condition, step and
body, or the end of a round of it. -/
inductive Task
  | run (s : Stmt)
  | test (condition : Option Expr) (step : Option Stmt) (body : Stmt)
  | next (condition : Option Expr) (step : Option Stmt) (body : Stmt)

namespace Task

def stmts : Task → List Stmt
  | .run s => [s]
  | .test _ step body | .next _ step body => body :: step.toList

def fromNext : List Task → List Task
  | [] => []
  | .next condition step body :: rest => .next condition step body :: rest
  | _ :: rest => fromNext rest

end Task

/-- A point of an execution: what is left to do, the variables, and the locals whose declarations
have been executed. -/
structure Point (A : Type u) where
  tasks : List Task
  vars : Variables A
  declared : List String

namespace Point

def start (body : Stmt) (vars : Variables A) : Point A :=
  ⟨[.run body], vars, []⟩

def Holds (vars : Variables A) (condition : Option Expr) (b : Bool) : Prop :=
  match condition with
  | none => b = true
  | some e => ∃ env : Environment A, env.Reads vars ∧ e.value env = some (.literal (.bool b))

/-- One step of an execution. Fields, arrays and the results of calls can be anything wherever an
expression is evaluated. -/
inductive Step : Point A → Point A → Prop
  | declare {id name type e v w rest vars declared} {env : Environment A} (henv : env.Reads vars)
      (hv : e.value env = some v) (hw : v.stored type = some w) :
      Step ⟨.run (.declare id name type (some e)) :: rest, vars, declared⟩
        ⟨rest, vars.set name type w, name :: declared⟩
  | declareOnly {id name type rest vars declared} (w : Value A) :
      Step ⟨.run (.declare id name type none) :: rest, vars, declared⟩
        ⟨rest, vars.set name type w, name :: declared⟩
  | assign {id target e name type old v w rest vars declared} {env : Environment A}
      (htarget : target.variable? = some name) (henv : env.Reads vars)
      (hv : e.value env = some v) (htype : vars name = some (type, old))
      (hw : v.stored type = some w) :
      Step ⟨.run (.assign id target e) :: rest, vars, declared⟩
        ⟨rest, vars.set name type w, declared⟩
  | assignField {id field e rest vars declared} :
      Step ⟨.run (.assign id (.toField field) e) :: rest, vars, declared⟩ ⟨rest, vars, declared⟩
  | store {id array index value rest vars vars' declared} (hvars : vars.SameLiterals vars') :
      Step ⟨.run (.store id array index value) :: rest, vars, declared⟩ ⟨rest, vars', declared⟩
  | branch {id condition thenBranch elseBranch rest vars declared} (b : Bool)
      (hb : Holds vars (some condition) b) :
      Step ⟨.run (.branch id condition thenBranch elseBranch) :: rest, vars, declared⟩
        ⟨(if b then [.run thenBranch] else elseBranch.toList.map .run) ++ rest, vars, declared⟩
  | whileLoop {id condition body rest vars declared} :
      Step ⟨.run (.whileLoop id condition body) :: rest, vars, declared⟩
        ⟨.test (some condition) none body :: rest, vars, declared⟩
  | forLoop {id init condition step body rest vars declared} :
      Step ⟨.run (.forLoop id init condition step body) :: rest, vars, declared⟩
        ⟨init.toList.map .run ++ .test condition step body :: rest, vars, declared⟩
  | test {condition step body rest vars declared} (b : Bool) (hb : Holds vars condition b) :
      Step ⟨.test condition step body :: rest, vars, declared⟩
        ⟨(if b then [.run body, .next condition step body] else []) ++ rest, vars, declared⟩
  | next {condition step body rest vars declared} :
      Step ⟨.next condition step body :: rest, vars, declared⟩
        ⟨step.toList.map .run ++ .test condition step body :: rest, vars, declared⟩
  | ret {id value rest vars declared} :
      Step ⟨.run (.ret id value) :: rest, vars, declared⟩ ⟨[], vars, declared⟩
  | eval {id e rest vars declared} :
      Step ⟨.run (.eval id e) :: rest, vars, declared⟩ ⟨rest, vars, declared⟩
  | block {id stmts rest vars declared} :
      Step ⟨.run (.block id stmts) :: rest, vars, declared⟩
        ⟨stmts.map .run ++ rest, vars, declared⟩
  | breakLoop {id rest vars declared} :
      Step ⟨.run (.breakLoop id) :: rest, vars, declared⟩
        ⟨(Task.fromNext rest).tail, vars, declared⟩
  | continueLoop {id rest vars declared} :
      Step ⟨.run (.continueLoop id) :: rest, vars, declared⟩
        ⟨Task.fromNext rest, vars, declared⟩
  /-- One more copy of a parallel invocation is started, with its number in the index. -/
  | copy {id count index call results rest vars vars' declared}
      (hvars : vars.AgreeOff [index] vars') :
      Step ⟨.run (.parallel id count index call results) :: rest, vars, declared⟩
        ⟨.run (.parallel id count index call results) :: rest, vars', declared⟩
  | join {id count index call results rest vars vars' declared}
      (hvars : vars.AgreeOff results.toList vars') :
      Step ⟨.run (.parallel id count index call results) :: rest, vars, declared⟩
        ⟨rest, vars', declared⟩

def Leads : Point A → Point A → Prop :=
  Relation.ReflTransGen Step

end Point

namespace Stmt

variable {body : Stmt} {x : String} {l : Literal}

theorem eq_of_literalDeclaration {s : Stmt} (h : s.literalDeclaration = some (x, l)) :
    ∃ id type literalId, s = .declare id x type (some (.literal literalId l)) := by
  cases s with
  | declare id name type init =>
    rw [literalDeclaration] at h
    split at h
    · cases h
    · obtain ⟨l', hl, heq⟩ := Option.map_eq_some_iff.1 h
      obtain ⟨rfl, rfl⟩ := Prod.mk.inj heq
      obtain ⟨e, rfl, he⟩ := Option.bind_eq_some_iff.1 hl
      cases e with
      | literal literalId value =>
        cases he
        exact ⟨id, type, literalId, rfl⟩
      | _ => cases he
  | _ => cases h

theorem of_constantLocals (h : body.constantLocals.lookup x = some l) :
    ∃ id type literalId, .declare id x type (some (.literal literalId l)) ∈ body.nodes ∧
      (∀ s ∈ body.nodes, s.declared = some x →
        s = .declare id x type (some (.literal literalId l))) ∧
      ∀ s ∈ body.nodes, x ∉ s.reassigned := by
  obtain ⟨s, hs, hsome⟩ := List.mem_filterMap.1 (mem_of_lookup h)
  split at hsome
  next name l' hliteral =>
    obtain ⟨hcond, heq⟩ := Option.ite_none_right_eq_some.1 hsome
    obtain ⟨rfl, rfl⟩ := Prod.mk.inj (Option.some.inj heq)
    rw [Bool.and_eq_true, decide_eq_true_eq, Bool.not_eq_true'] at hcond
    obtain ⟨hcount, hchanged⟩ := hcond
    obtain ⟨id, type, literalId, rfl⟩ := eq_of_literalDeclaration hliteral
    refine ⟨id, type, literalId, hs, fun t ht hdeclared ↦ ?_, fun t ht hx ↦ ?_⟩
    · rw [List.count_filterMap, List.countP_eq_length_filter] at hcount
      obtain ⟨d, hd⟩ := List.length_eq_one_iff.1 hcount
      have honly {t : Stmt} (ht : t ∈ body.nodes) (hdeclared : t.declared = some name) : t = d := by
        rw [← List.mem_singleton, ← hd]
        exact List.mem_filter.2 ⟨ht, beq_iff_eq.2 hdeclared⟩
      rw [honly ht hdeclared, honly hs rfl]
    · rw [List.contains_iff_mem.2 (List.mem_flatMap.2 ⟨t, ht, hx⟩)] at hchanged
      cases hchanged
  next => cases hsome

end Stmt

theorem Task.fromNext_suffix (ts : List Task) : fromNext ts <:+ ts := by
  induction ts with
  | nil => exact List.suffix_refl _
  | cons t ts ih =>
    cases t with
    | next => exact List.suffix_refl _
    | _ => exact ih.trans (List.suffix_cons _ _)

namespace Point

variable {body : Stmt} {x : String} {type : TypeRef} {l : Literal} {c c' : Point A}

def Within (body : Stmt) (ts : List Task) : Prop :=
  ∀ t ∈ ts, ∀ s ∈ t.stmts, s ∈ body.nodes

theorem Within.append {ts ts' : List Task} (h : Within body ts) (h' : Within body ts') :
    Within body (ts ++ ts') :=
  List.forall_mem_append.2 ⟨h, h'⟩

theorem within_map_run {ss : List Stmt} (h : ∀ s ∈ ss, s ∈ body.nodes) :
    Within body (ss.map .run) := by
  intro t ht
  obtain ⟨s, hs, rfl⟩ := List.mem_map.1 ht
  simpa [Task.stmts] using h s hs

theorem Step.within (hstep : Step c c') (h : Within body c.tasks) : Within body c'.tasks := by
  have hchild {s t : Stmt} (hs : s ∈ body.nodes) (ht : t ∈ s.children) : t ∈ body.nodes :=
    Stmt.nodes_subset hs (Stmt.nodes_subset_of_mem_children ht t.mem_nodes_self)
  have hrun {s : Stmt} {rest : List Task} (h : Within body (.run s :: rest)) :
      (∀ t ∈ s.children, t ∈ body.nodes) ∧ Within body rest := by
    obtain ⟨hs, hrest⟩ := List.forall_mem_cons.1 h
    exact ⟨fun t ht ↦ hchild (hs s (List.mem_singleton_self s)) ht, hrest⟩
  have hexit {rest : List Task} (h : Within body rest) : Within body (Task.fromNext rest) :=
    fun t ht ↦ h t ((Task.fromNext_suffix rest).subset ht)
  cases hstep with
  | branch b hb =>
    obtain ⟨hs, hrest⟩ := hrun h
    refine Within.append ?_ hrest
    cases b with
    | true =>
      change Within body (List.map Task.run [_])
      exact within_map_run (List.forall_mem_singleton.2 (hs _ List.mem_cons_self))
    | false => exact within_map_run fun s he ↦ hs s (List.mem_cons_of_mem _ he)
  | whileLoop =>
    obtain ⟨hs, hrest⟩ := hrun h
    exact List.forall_mem_cons.2 ⟨by simpa [Task.stmts, Stmt.children] using hs, hrest⟩
  | forLoop =>
    obtain ⟨hs, hrest⟩ := hrun h
    obtain ⟨hinit, hloop⟩ := List.forall_mem_append.1 hs
    exact Within.append (within_map_run hinit) (List.forall_mem_cons.2 ⟨hloop, hrest⟩)
  | test b hb =>
    obtain ⟨hs, hrest⟩ := List.forall_mem_cons.1 h
    refine Within.append ?_ hrest
    cases b with
    | true =>
      refine List.forall_mem_cons.2 ⟨?_, List.forall_mem_singleton.2 hs⟩
      simpa [Task.stmts] using hs _ List.mem_cons_self
    | false => exact List.forall_mem_nil _
  | next =>
    obtain ⟨hs, hrest⟩ := List.forall_mem_cons.1 h
    exact Within.append (within_map_run fun s he ↦ hs s (List.mem_cons_of_mem _ he))
      (List.forall_mem_cons.2 ⟨hs, hrest⟩)
  | ret => exact List.forall_mem_nil _
  | block =>
    obtain ⟨hs, hrest⟩ := hrun h
    exact Within.append (within_map_run hs) hrest
  | breakLoop => exact fun t ht ↦ hexit (hrun h).2 t (List.mem_of_mem_tail ht)
  | continueLoop => exact hexit (hrun h).2
  | copy => exact h
  | _ => exact (List.forall_mem_cons.1 h).2

def Has (x : String) (type : TypeRef) (l : Literal) (c : Point A) : Prop :=
  x ∈ c.declared → ∃ w, l.stored type = some w ∧ c.vars x = some (type, .literal w)

theorem Step.has {id literalId : NodeId} (hstep : Step c c') (hwithin : Within body c.tasks)
    (hdeclared : ∀ s ∈ body.nodes, s.declared = some x →
      s = .declare id x type (some (.literal literalId l)))
    (hunchanged : ∀ s ∈ body.nodes, x ∉ s.reassigned)
    (hparameter : ∀ id e, .assign id (.toParameter x) e ∉ body.nodes) (h : c.Has x type l) :
    c'.Has x type l := by
  have hrun {s : Stmt} {rest : List Task} (h : Within body (.run s :: rest)) : s ∈ body.nodes :=
    (List.forall_mem_cons.1 h).1 s (List.mem_singleton_self s)
  have hset {vars : Variables A} {name : String} {type' : TypeRef} {w : Value A} (hne : x ≠ name) :
      vars.set name type' w x = vars x := if_neg hne
  cases hstep with
  | @declare id' name type' e v w rest vars declared env henv hv hw =>
    by_cases hx : x = name
    · subst hx
      cases hdeclared _ (hrun hwithin) rfl
      rw [Expr.value] at hv
      obtain rfl := Option.some.inj hv
      obtain ⟨w, hstored, rfl⟩ := Option.map_eq_some_iff.1 hw
      exact fun _ ↦ ⟨w, hstored, if_pos rfl⟩
    · intro hmem
      obtain ⟨w, hstored, hvars⟩ := h ((List.mem_cons.1 hmem).resolve_left hx)
      exact ⟨w, hstored, (hset hx).trans hvars⟩
  | @declareOnly id' name type' rest vars declared w =>
    have hx : x ≠ name := by
      rintro rfl
      cases hdeclared _ (hrun hwithin) rfl
    intro hmem
    obtain ⟨w, hstored, hvars⟩ := h ((List.mem_cons.1 hmem).resolve_left hx)
    exact ⟨w, hstored, (hset hx).trans hvars⟩
  | @assign id' target e name type' old v w rest vars declared env htarget henv hv htype hw =>
    have hx : x ≠ name := by
      rintro rfl
      cases target with
      | toLocal y =>
        obtain rfl := Option.some.inj htarget
        exact hunchanged _ (hrun hwithin) (List.mem_singleton_self _)
      | toParameter y =>
        obtain rfl := Option.some.inj htarget
        exact hparameter _ _ (hrun hwithin)
      | toField => cases htarget
    intro hmem
    obtain ⟨w, hstored, hvars⟩ := h hmem
    exact ⟨w, hstored, (hset hx).trans hvars⟩
  | store hvars =>
    intro hmem
    obtain ⟨w, hstored, hx⟩ := h hmem
    exact ⟨w, hstored, hvars x type w hx⟩
  | @copy id' count index call results rest vars vars' declared hvars =>
    intro hmem
    obtain ⟨w, hstored, hx⟩ := h hmem
    refine ⟨w, hstored, (hvars x fun hindex ↦ ?_).trans hx⟩
    refine hunchanged _ (hrun hwithin) ?_
    rw [List.mem_singleton.1 hindex]
    exact List.mem_cons_self
  | @join id' count index call results rest vars vars' declared hvars =>
    intro hmem
    obtain ⟨w, hstored, hx⟩ := h hmem
    refine ⟨w, hstored, (hvars x fun hresult ↦ ?_).trans hx⟩
    exact hunchanged _ (hrun hwithin) (List.mem_cons_of_mem _ hresult)
  | _ => exact h

theorem Leads.has {id literalId : NodeId} {vars : Variables A} (hc : (start body vars).Leads c)
    (hdeclared : ∀ s ∈ body.nodes, s.declared = some x →
      s = .declare id x type (some (.literal literalId l)))
    (hunchanged : ∀ s ∈ body.nodes, x ∉ s.reassigned)
    (hparameter : ∀ id e, .assign id (.toParameter x) e ∉ body.nodes) :
    Within body c.tasks ∧ c.Has x type l := by
  induction hc with
  | refl =>
    refine ⟨within_map_run (List.forall_mem_singleton.2 body.mem_nodes_self), ?_⟩
    intro hx
    cases hx
  | tail _ hstep ih =>
    exact ⟨hstep.within ih.1, hstep.has ih.1 hdeclared hunchanged hparameter ih.2⟩

end Point

def Environment.ofVariables (vars : Variables A) : Environment A where
  locals := fun x ↦ (vars x).map Prod.snd
  parameters := fun x ↦ (vars x).map Prod.snd
  fields := fun _ ↦ none
  call := fun _ _ ↦ none
  newArray := fun _ _ ↦ none
  element := fun _ _ ↦ none
  length := fun _ ↦ none

theorem Environment.reads_ofVariables (vars : Variables A) :
    (Environment.ofVariables vars).Reads vars :=
  ⟨fun _ ↦ rfl, fun _ ↦ rfl⟩

/-- A local that is taken for a constant has one declaration. If no parameter of its name is
assigned, every read after the declaration gives the literal in the type of the local, which is the
literal itself exactly if it has this type; then reads can be replaced by it. -/
theorem Stmt.reads_constantLocal {body : Stmt} {x : String} {l : Literal}
    (h : body.constantLocals.lookup x = some l) :
    ∃ id type literalId, .declare id x type (some (.literal literalId l)) ∈ body.nodes ∧
      (∀ s ∈ body.nodes, s.declared = some x →
        s = .declare id x type (some (.literal literalId l))) ∧
      ((∀ id e, .assign id (.toParameter x) e ∉ body.nodes) →
        ∀ (vars : Variables A) (c : Point A), (Point.start body vars).Leads c → x ∈ c.declared →
          ∃ w, l.stored type = some w ∧ (w = l ↔ l.type = type) ∧
            ∀ env : Environment A, env.Reads c.vars →
              env.locals x = some (.literal w) ∧ env.parameters x = some (.literal w) ∧
              (w = l → ∀ e : Expr,
                (e.simplify (Expr.foldStep [] [(x, l)])).1.value env = e.value env)) := by
  obtain ⟨id, type, literalId, hmem, hdeclared, hunchanged⟩ := of_constantLocals h
  refine ⟨id, type, literalId, hmem, hdeclared, ?_⟩
  intro hparameter vars c hc hx
  obtain ⟨w, hstored, hvars⟩ := (hc.has hdeclared hunchanged hparameter).2 hx
  refine ⟨w, hstored, Literal.stored_eq_iff hstored, fun env henv ↦ ?_⟩
  have hlocal : env.locals x = some (.literal w) := by
    rw [henv.locals, hvars, Option.map_some]
  refine ⟨hlocal, by rw [henv.parameters, hvars, Option.map_some], ?_⟩
  rintro rfl e
  refine Expr.value_simplify ⟨fun {name l} hl ↦ ?_, fun hl ↦ by cases hl⟩ e
  obtain ⟨rfl, rfl⟩ := Prod.mk.inj (List.mem_singleton.1 (mem_of_lookup hl))
  exact hlocal

def limited : Stmt :=
  .block 0 [.declare 1 "n" .i32 (some (.literal 2 (.i32 3))),
    .declare 3 "i" .i32 (some (.literal 4 (.i32 0))),
    .whileLoop 5 (.binary 6 .lt (.getLocal 7 "i") (.getLocal 8 "n"))
      (.assign 9 (.toLocal "i") (.binary 10 .add (.getLocal 11 "i") (.literal 12 (.i32 1)))),
    .ret 13 (some (.getLocal 14 "n"))]

theorem reads_constantLocal_limited :
    limited.constantLocals.lookup "n" = some (.i32 3) ∧
      ∃ c : Point Empty, (Point.start limited fun _ ↦ none).Leads c ∧
        (∃ condition step body rest, c.tasks = .next condition step body :: rest) ∧
        ∀ env : Environment Empty, env.Reads c.vars →
          env.locals "n" = some (.literal (.i32 3)) := by
  have hlookup : limited.constantLocals.lookup "n" = some (.i32 3) := by decide
  refine ⟨hlookup, ?_⟩
  obtain ⟨c, hc, hdeclared, htasks⟩ : ∃ c : Point Empty,
      (Point.start limited fun _ ↦ none).Leads c ∧ "n" ∈ c.declared ∧
        ∃ condition step body rest, c.tasks = .next condition step body :: rest := by
    refine ⟨_, .head .block (.head (.declare (Environment.reads_ofVariables _) rfl rfl)
      (.head (.declare (Environment.reads_ofVariables _) rfl rfl) (.head .whileLoop
        (.head (.test true ⟨_, Environment.reads_ofVariables _, rfl⟩) (.head
          (.assign rfl (Environment.reads_ofVariables _) rfl rfl rfl) .refl))))), ?_, ?_⟩
    · decide
    · exact ⟨_, _, _, _, rfl⟩
  obtain ⟨id, type, literalId, -, honly, hreads⟩ := Stmt.reads_constantLocal (A := Empty) hlookup
  have hdeclaration := honly (.declare 1 "n" .i32 (some (.literal 2 (.i32 3))))
    (by simp [limited, Stmt.nodes, Stmt.nodesList]) rfl
  obtain ⟨rfl, -, rfl, -⟩ := Stmt.declare.inj hdeclaration
  have hparameter (id : NodeId) (e : Expr) : .assign id (.toParameter "n") e ∉ limited.nodes := by
    simp [limited, Stmt.nodes, Stmt.nodesList]
  obtain ⟨w, -, hexact, hw⟩ := hreads hparameter _ c hc hdeclared
  obtain rfl := hexact.2 rfl
  exact ⟨c, hc, htasks, fun env henv ↦ (hw env henv).1⟩

def widened : Stmt :=
  .block 0 [.declare 1 "x" .i64 (some (.literal 2 (.i32 2000000000))),
    .ret 3 (some (.binary 4 .add (.getLocal 5 "x") (.getLocal 6 "x")))]

def reset : Stmt :=
  .block 0 [.declare 1 "x" .i32 (some (.literal 2 (.i32 5))),
    .assign 3 (.toParameter "x") (.literal 4 (.i32 7)), .ret 5 (some (.getLocal 6 "x"))]

/-- A declaration converts a literal to the type of the local, and an assignment to a parameter of
the same name changes the local, but reads of the local are taken for the literal. -/
theorem exists_constantLocal_changed :
    (widened.constantLocals.lookup "x" = some (.i32 2000000000) ∧
      ∃ c : Point Empty, (Point.start widened fun _ ↦ none).Leads c ∧ "x" ∈ c.declared ∧
        c.vars "x" = some (.i64, .literal (.int 2000000000 64 true)) ∧
        ∀ env : Environment Empty, env.Reads c.vars →
          (Expr.binary 4 .add (.getLocal 5 "x") (.getLocal 6 "x")).value env =
            some (.literal (.int 4000000000 64 true)) ∧
          ((Expr.binary 4 .add (.getLocal 5 "x") (.getLocal 6 "x")).simplify
            (Expr.foldStep [] widened.constantLocals)).1 = .literal 4 (.i32 (-294967296))) ∧
    (reset.constantLocals.lookup "x" = some (.i32 5) ∧
      ∃ c : Point Empty, (Point.start reset fun _ ↦ none).Leads c ∧ "x" ∈ c.declared ∧
        c.vars "x" = some (.i32, .literal (.i32 7))) := by
  refine ⟨⟨by decide, ⟨_, _, _⟩, .head .block (.head
    (.declare (Environment.reads_ofVariables _) rfl rfl) .refl), ?_, rfl, fun env henv ↦ ⟨?_, ?_⟩⟩,
    by decide, ⟨_, _, _⟩, .head .block (.head (.declare (Environment.reads_ofVariables _) rfl rfl)
      (.head (.assign rfl (Environment.reads_ofVariables _) rfl rfl rfl) .refl)), ?_, rfl⟩
  · decide
  · simp only [Expr.value, henv.locals]
    rfl
  · rfl
  · decide

end Fabric
