import Fabric.Proofs.Source.Control
import Fabric.Syntax.Index

namespace Fabric

variable {V : Type} (I : Interpretation V)

def Store.blank : Store V := ⟨fun _ ↦ I.bool false, none⟩

def Expr.denoteArguments (Γ : Scope) (values : String → V) :
    List (Parameter × Expr) → Option (String → V)
  | [] => some fun _ ↦ I.bool false
  | (p, e) :: rest =>
    p.type.scalarHardware?.bind fun type ↦ (e.denoteAs I Γ type values).bind fun v ↦
      (denoteArguments Γ values rest).map fun arguments x ↦ if x = p.name then v else arguments x

def MethodDecl.call (Γ : Scope) (m : MethodDecl) (args : List Expr) (σ : Store V) :
    Option (Store V) :=
  if m.parameters.length = args.length then
    (Expr.denoteArguments I Γ σ.values (m.parameters.zip args)).bind fun arguments ↦
      m.run I 0 arguments (.blank I)
  else none

def Meaning.calling (tree : SyntaxTree) (Γ : Scope) : Meaning V where
  value e type σ :=
    match e with
    | .call _ target args =>
      (tree.resolveCall target).bind fun h ↦ ((tree.method h).call I Γ args σ).bind fun σ' ↦
        σ'.result.bind fun v ↦ (tree.method h).returnType.scalarHardware?.map fun source ↦
          (Operand.convert I ⟨v, source, none⟩ type).value
    | e => e.denoteAs I Γ type σ.values
  effect e σ :=
    match e with
    | .call _ target args =>
      (tree.resolveCall target).bind fun h ↦ ((tree.method h).call I Γ args σ).map fun _ ↦ ()
    | _ => some ()

namespace MethodDecl

def runIn (E : Meaning V) (limit : Nat) (m : MethodDecl) (arguments : String → V) (σ : Store V) :
    Option (Store V) :=
  m.body.bind fun s ↦
    (s.runIn I m.scope E limit
      (m.parameters.foldl (fun σ p ↦ σ.set p.name (arguments p.name)) σ)).map Prod.snd

def EndsIn (E : Meaning V) (m : MethodDecl) (arguments : String → V) (σ σ' : Store V) : Prop :=
  ∃ limit, m.runIn I E limit arguments σ = some σ'

end MethodDecl

def Expr.readsOnly (bound : String → Bool) (e : Expr) : Bool :=
  e.nodes.all fun
    | .getLocal _ name | .getParameter _ name => bound name
    | _ => true

namespace Stmt

mutual

/-- The variables that are set after a statement, if those in `bound` are set before: on every path on
which control comes to its end. -/
def binds (bound : String → Bool) : Stmt → String → Bool
  | .declare _ name _ _, x | .assign _ (.toLocal name) _, x | .assign _ (.toParameter name) _, x =>
    x == name || bound x
  | .branch _ _ thenBranch elseBranch, x =>
    binds bound thenBranch x && bindsOption bound elseBranch x
  | .block _ stmts, x => bindsList bound stmts x
  | .ret _ _, _ => true
  | _, x => bound x

def bindsOption (bound : String → Bool) : Option Stmt → String → Bool
  | none, x => bound x
  | some s, x => binds bound s x

def bindsList (bound : String → Bool) : List Stmt → String → Bool
  | [], x => bound x
  | s :: ss, x => bindsList (binds bound s) ss x

end

mutual

/-- A statement of blocks, declarations with values, assignments, branches and returns that reads
variables only where they are set. `bound` are the variables that are set before. -/
def isStraight (bound : String → Bool) : Stmt → Bool
  | .declare _ _ _ (some e) => e.readsOnly bound
  | .assign _ _ e => e.readsOnly bound
  | .branch _ condition thenBranch elseBranch =>
    condition.readsOnly bound && isStraight bound thenBranch && isStraightOption bound elseBranch
  | .ret _ value => value.all (·.readsOnly bound)
  | .block _ stmts => isStraightList bound stmts
  | _ => false

def isStraightOption (bound : String → Bool) : Option Stmt → Bool
  | none => true
  | some s => isStraight bound s

def isStraightList (bound : String → Bool) : List Stmt → Bool
  | [] => true
  | s :: ss => isStraight bound s && isStraightList (s.binds bound) ss

end

end Stmt

def MethodDecl.hasParameter (m : MethodDecl) (x : String) : Bool :=
  (m.parameters.map Parameter.name).contains x

/-- A method that can be called: one on scalars without loops and calls, in which variables are
declared with their values and read only where they are set. -/
structure MethodDecl.IsStraight (m : MethodDecl) : Prop extends m.IsSimple where
  straight : ∀ s ∈ m.body, s.isStraight m.hasParameter
  dotless : ∀ p ∈ m.locals, '.' ∉ p.1.toList

def MethodDecl.Returns (m : MethodDecl) : Prop :=
  m.returnType ≠ .void → ∀ s ∈ m.body, ∀ (arguments : String → V) o σ,
    s.run I m.scope 0
      (m.parameters.foldl (fun σ p ↦ σ.set p.name (arguments p.name)) (.blank I)) = some (o, σ) →
    o = .returned

namespace Expr

variable {I} {Γ : Scope} {bound : String → Bool} {e c : Expr} {values values' : String → V}

theorem readsOnly_child (h : e.readsOnly bound) (hc : c ∈ e.children) : c.readsOnly bound :=
  List.all_eq_true.2 fun n hn ↦ List.all_eq_true.1 h n (nodes_subset_of_mem_children hc hn)

/-- The value of an expression depends on the variables that it reads. -/
theorem denote_congr (h : e.readsOnly bound) (hv : ∀ x, bound x → values x = values' x) :
    e.denote I Γ values = e.denote I Γ values' := by
  induction e using Expr.induction with
  | getLocal id name | getParameter id name =>
    have hname := List.all_eq_true.1 h _ (mem_nodes_self _)
    rw [denote, denote, hv name hname]
  | unary id op operand ih =>
    rw [denote, denote, ih (readsOnly_child h (by simp [children]))]
  | binary id op lhs rhs ihl ihr =>
    rw [denote, denote, ihl (readsOnly_child h (by simp [children])),
      ihr (readsOnly_child h (by simp [children]))]
  | cast id type operand ih =>
    rw [denote, denote, ih (readsOnly_child h (by simp [children]))]
  | _ => rfl

theorem denoteAs_congr (h : e.readsOnly bound) (hv : ∀ x, bound x → values x = values' x)
    (type : HwType) : e.denoteAs I Γ type values = e.denoteAs I Γ type values' := by
  rw [denoteAs, denoteAs, denote_congr h hv]

end Expr

namespace Stmt

/-- Two runs end alike: both normally with the same variables, or both with the same result. -/
inductive Alike (Γ : Scope) (bound : String → Bool) :
    Option (Outcome × Store V) → Option (Outcome × Store V) → Prop
  | stuck : Alike Γ bound none none
  | normal {σ σ' : Store V} : (∀ x, bound x → σ.values x = σ'.values x) → σ.result = σ'.result →
    Alike Γ bound (some (.normal, σ)) (some (.normal, σ'))
  | returned {σ σ' : Store V} : (Γ.result.isSome → σ.result.isSome) → σ.result = σ'.result →
    Alike Γ bound (some (.returned, σ)) (some (.returned, σ'))

variable {I} {Γ : Scope} {limit : Nat} {bound : String → Bool} {s : Stmt} {σ σ' : Store V}
  {r r' : Option (Outcome × Store V)}

theorem Alike.mono {bound' : String → Bool} (h : Alike Γ bound r r')
    (hsub : ∀ x, bound' x → bound x) :
    Alike Γ bound' r r' := by
  cases h with
  | stuck => exact .stuck
  | normal hv hr => exact .normal (fun x hx ↦ hv x (hsub x hx)) hr
  | returned hs hr => exact .returned hs hr

theorem alike_assign {name : String} {e : Expr} (he : e.readsOnly bound)
    (hv : ∀ x, bound x → σ.values x = σ'.values x) (hr : σ.result = σ'.result) :
    Alike Γ (fun x ↦ x == name || bound x) ((σ.assign I Γ name e).map fun σ ↦ (.normal, σ))
      ((σ'.assign I Γ name e).map fun σ ↦ (.normal, σ)) := by
  unfold Store.assign
  cases Γ.type? name with
  | none => exact .stuck
  | some type =>
    rw [Option.bind_some, Option.bind_some, Expr.denoteAs_congr he hv]
    cases e.denoteAs I Γ type σ'.values with
    | none => exact .stuck
    | some v =>
      refine .normal (fun x hx ↦ ?_) hr
      unfold Store.set
      dsimp only
      split
      next => rfl
      next hne =>
        rw [beq_eq_false_iff_ne.2 hne, Bool.false_or] at hx
        exact hv x hx

/-- What a statement does depends on the variables that are set before. -/
theorem alike_run (h : s.isStraight bound) (hv : ∀ x, bound x → σ.values x = σ'.values x)
    (hr : σ.result = σ'.result) :
    Alike Γ (s.binds bound) (s.run I Γ limit σ) (s.run I Γ limit σ') := by
  induction s using Stmt.induction generalizing bound σ σ' with
  | declare id name type init =>
    cases init with
    | none => simp [isStraight] at h
    | some e =>
      rw [isStraight] at h
      rw [run, run]
      exact (alike_assign h hv hr).mono fun x hx ↦ by rwa [binds] at hx
  | assign id target e =>
    rw [isStraight] at h
    cases target with
    | toField f =>
      simp only [run]
      exact .stuck
    | toLocal name | toParameter name =>
      rw [run, run]
      exact (alike_assign h hv hr).mono fun x hx ↦ by rwa [binds] at hx
  | branch id condition thenBranch elseBranch iht ihe =>
    rw [isStraight, Bool.and_eq_true, Bool.and_eq_true] at h
    obtain ⟨⟨hcondition, hthen⟩, helse⟩ := h
    have hbinds (x) (hx : (Stmt.branch id condition thenBranch elseBranch).binds bound x) :
        thenBranch.binds bound x ∧ bindsOption bound elseBranch x := by
      rwa [binds, Bool.and_eq_true] at hx
    rw [run, run, Store.holds, Store.holds, Expr.denoteAs_congr hcondition hv]
    cases (condition.denoteAs I Γ .boolean σ'.values).map I.truth with
    | none => exact .stuck
    | some b =>
      cases b with
      | true => exact (iht hthen hv hr).mono fun x hx ↦ (hbinds x hx).1
      | false =>
        cases elseBranch with
        | none =>
          rw [runOption, runOption]
          exact .normal (fun x hx ↦ hv x (hbinds x hx).2) hr
        | some c =>
          rw [isStraightOption] at helse
          rw [runOption, runOption]
          exact (ihe c rfl helse hv hr).mono fun x hx ↦ (hbinds x hx).2
  | ret id value =>
    rw [isStraight] at h
    rw [run, run]
    unfold Store.give
    cases hresult : Γ.result with
    | none => exact .returned (by simp [hresult]) hr
    | some type =>
      cases value with
      | none => exact .stuck
      | some e =>
        dsimp only
        rw [Expr.denoteAs_congr h hv]
        cases e.denoteAs I Γ type σ'.values with
        | none => exact .stuck
        | some v => exact .returned (fun _ ↦ rfl) rfl
  | block id stmts ih =>
    rw [isStraight] at h
    rw [run, run]
    refine Alike.mono (?_ : Alike Γ (bindsList bound stmts) _ _) fun x hx ↦ by rwa [binds] at hx
    induction stmts generalizing bound σ σ' with
    | nil =>
      rw [runList, runList]
      exact .normal hv hr
    | cons c rest ihr =>
      rw [isStraightList, Bool.and_eq_true] at h
      have hfirst := ih c List.mem_cons_self h.1 hv hr
      rw [runList, runList]
      generalize c.run I Γ limit σ = r at hfirst
      generalize c.run I Γ limit σ' = r' at hfirst
      cases hfirst with
      | stuck => exact .stuck
      | normal hv' hr' => exact ihr (fun s hs ↦ ih s (List.mem_cons_of_mem _ hs)) h.2 hv' hr'
      | returned hs hr' => exact .returned hs hr'
  | _ => simp [isStraight] at h

theorem isLoop_of_isStraight (h : s.isStraight bound) : ∀ t ∈ s.nodes, t.isLoop = false := by
  induction s using Stmt.induction generalizing bound with
  | branch id condition thenBranch elseBranch iht ihe =>
    rw [isStraight, Bool.and_eq_true, Bool.and_eq_true] at h
    rw [nodes, List.forall_mem_cons, List.forall_mem_append]
    refine ⟨rfl, iht h.1.2, ?_⟩
    cases elseBranch with
    | none => exact nofun
    | some c =>
      rw [isStraightOption] at h
      exact ihe c rfl h.2
  | block id stmts ih =>
    rw [isStraight] at h
    rw [nodes, List.forall_mem_cons]
    refine ⟨rfl, ?_⟩
    induction stmts generalizing bound with
    | nil => exact nofun
    | cons c rest ihr =>
      rw [isStraightList, Bool.and_eq_true] at h
      rw [nodesList, List.forall_mem_append]
      exact ⟨ih c List.mem_cons_self h.1, ihr (fun s hs ↦ ih s (List.mem_cons_of_mem _ hs)) h.2⟩
  | declare | assign | ret =>
    rw [nodes, List.forall_mem_singleton]
    · rfl
    all_goals exact nofun
  | _ => simp [isStraight] at h

mutual

def alwaysReturns : Stmt → Bool
  | .ret _ _ => true
  | .branch _ _ thenBranch (some elseBranch) => alwaysReturns thenBranch && alwaysReturns elseBranch
  | .block _ stmts => alwaysReturnsList stmts
  | _ => false

def alwaysReturnsList : List Stmt → Bool
  | [] => false
  | s :: ss => alwaysReturns s || alwaysReturnsList ss

end

theorem outcome_of_isStraight {o : Outcome} (h : s.isStraight bound)
    (hrun : s.run I Γ limit σ = some (o, σ')) : o = .normal ∨ o = .returned := by
  have halike : Alike Γ (s.binds bound) (s.run I Γ limit σ) (s.run I Γ limit σ) :=
    alike_run h (fun _ _ ↦ rfl) rfl
  rw [hrun] at halike
  cases halike with
  | normal => exact .inl rfl
  | returned => exact .inr rfl

theorem returned_of_alwaysReturns {o : Outcome} (h : s.isStraight bound) (hs : s.alwaysReturns)
    (hrun : s.run I Γ limit σ = some (o, σ')) : o = .returned := by
  induction s using Stmt.induction generalizing bound σ o σ' with
  | ret id value =>
    rw [run, Option.map_eq_some_iff] at hrun
    obtain ⟨_, -, heq⟩ := hrun
    exact (Prod.mk.inj heq).1.symm
  | branch id condition thenBranch elseBranch iht ihe =>
    rw [isStraight, Bool.and_eq_true, Bool.and_eq_true] at h
    cases elseBranch with
    | none => simp [alwaysReturns] at hs
    | some c =>
      rw [alwaysReturns, Bool.and_eq_true] at hs
      rw [isStraightOption] at h
      rw [run, runOption] at hrun
      split at hrun
      · cases hrun
      · exact iht h.1.2 hs.1 hrun
      · exact ihe c rfl h.2 hs.2 hrun
  | block id stmts ih =>
    rw [isStraight] at h
    rw [alwaysReturns] at hs
    rw [run] at hrun
    induction stmts generalizing bound σ with
    | nil => simp [alwaysReturnsList] at hs
    | cons c rest ihr =>
      rw [isStraightList, Bool.and_eq_true] at h
      rw [alwaysReturnsList, Bool.or_eq_true] at hs
      rw [runList] at hrun
      cases hfirst : c.run I Γ limit σ with
      | none =>
        rw [hfirst] at hrun
        cases hrun
      | some r =>
        obtain ⟨o', σ''⟩ := r
        rw [hfirst] at hrun
        rcases outcome_of_isStraight h.1 hfirst with rfl | rfl
        · have hrest := hs.resolve_left fun hc ↦
            Outcome.noConfusion (ih c List.mem_cons_self h.1 hc hfirst)
          exact ihr (fun s hs ↦ ih s (List.mem_cons_of_mem _ hs)) h.2 hrest hrun
        · exact (Prod.mk.inj (Option.some.inj hrun)).1.symm
  | _ => simp [alwaysReturns] at hs

end Stmt

def MethodDecl.AlwaysReturns (m : MethodDecl) : Prop :=
  ∀ s ∈ m.body, s.alwaysReturns

theorem MethodDecl.IsStraight.returns {m : MethodDecl} (hm : m.IsStraight) (h : m.AlwaysReturns) :
    m.Returns I :=
  fun _ s hs _ _ _ hrun ↦ Stmt.returned_of_alwaysReturns (hm.straight s hs) (h s hs) hrun

def Expr.isSimpleNode : Expr → Bool
  | .literal _ _ | .getLocal _ _ | .getParameter _ _ | .unary _ _ _ | .binary _ _ _ _
  | .cast _ _ _ => true
  | _ => false

theorem Expr.isSimple_iff (e : Expr) : (∀ n ∈ e.nodes, n.isSimpleNode) ↔ e.IsSimple := by
  refine forall₂_congr fun n _ ↦ ?_
  cases n <;> simp [isSimpleNode]

instance (e : Expr) : Decidable e.IsSimple := decidable_of_iff _ e.isSimple_iff

namespace Stmt

def isSimpleNode : Stmt → Bool
  | .declare _ _ type _ => type.scalarHardware?.isSome
  | .assign _ (.toField _) _ | .store _ _ _ _ | .eval _ _ | .parallel _ _ _ _ _ => false
  | _ => true

theorem isSimple_iff (s : Stmt) :
    (∀ t ∈ s.nodes, (∀ e ∈ t.exprs, e.IsSimple) ∧ t.isSimpleNode) ↔ s.IsSimple := by
  refine forall₂_congr fun t _ ↦ and_congr_right fun _ ↦ ?_
  cases t with
  | assign _ target _ => cases target <;> simp [isSimpleNode]
  | _ => simp [isSimpleNode]

instance (s : Stmt) : Decidable s.IsSimple := decidable_of_iff _ s.isSimple_iff

variable {values conditions : Expr → Prop} [DecidablePred values] [DecidablePred conditions]

def usesNode (values conditions : Expr → Prop) [DecidablePred values] [DecidablePred conditions] :
    Stmt → Bool
  | .declare _ _ type init => type.scalarHardware?.isSome ∧ ∀ e ∈ init, values e
  | .assign _ (.toField _) _ | .store _ _ _ _ | .parallel _ _ _ _ _ => false
  | .assign _ _ e => values e
  | .branch _ condition _ _ | .whileLoop _ condition _ => conditions condition
  | .forLoop _ _ condition _ _ => decide (∀ e ∈ condition, conditions e)
  | .ret _ value => decide (∀ e ∈ value, values e)
  | .eval _ e => e.isCall && values e
  | .block _ _ | .breakLoop _ | .continueLoop _ => true

theorem uses_iff (s : Stmt) :
    (∀ t ∈ s.nodes, t.usesNode values conditions) ↔ s.Uses values conditions := by
  refine forall₂_congr fun t _ ↦ ?_
  cases t with
  | assign _ target _ => cases target <;> simp [usesNode]
  | _ => simp [usesNode]

instance (s : Stmt) : Decidable (s.Uses values conditions) := decidable_of_iff _ s.uses_iff

end Stmt

namespace MethodDecl

variable (m : MethodDecl)

theorem isScalar_iff : ((∀ p ∈ m.parameters, p.type.scalarHardware?.isSome) ∧
    (m.returnType = .void ∨ m.returnType.scalarHardware?.isSome) ∧ (m.locals.map Prod.fst).Nodup) ↔
    m.IsScalar :=
  ⟨fun ⟨h, h', h''⟩ ↦ ⟨h, h', h''⟩, fun ⟨h, h', h''⟩ ↦ ⟨h, h', h''⟩⟩

instance : Decidable m.IsScalar := decidable_of_iff _ m.isScalar_iff

theorem isStraight_iff : (m.IsScalar ∧ (∀ s ∈ m.body, s.IsSimple) ∧
    (∀ s ∈ m.body, s.isStraight m.hasParameter) ∧
    ∀ p ∈ m.locals, '.' ∉ p.1.toList) ↔ m.IsStraight :=
  ⟨fun ⟨h, hbody, hstraight, hdotless⟩ ↦
    ⟨⟨hbody, h.parameters, h.returnType, h.names⟩, hstraight, hdotless⟩,
    fun h ↦ ⟨h.isScalar, h.body, h.straight, h.dotless⟩⟩

instance : Decidable m.IsStraight := decidable_of_iff _ m.isStraight_iff

instance : Decidable m.AlwaysReturns :=
  inferInstanceAs (Decidable (∀ s ∈ m.body, _))

end MethodDecl

end Fabric
