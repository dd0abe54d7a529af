import Fabric.Proofs.Component.Execution
import Fabric.Proofs.Component.Inference
import Fabric.Proofs.Construction.Copies

namespace Fabric

namespace HwStmt

theorem stores_storedResults (type : Option HwType) (array : String) (element : HwType)
    (first count : Nat) :
    (storedResults type array element first count).flatMap stores =
      type.toList.flatMap fun t ↦ (List.range count).map fun i ↦
        ⟨array, .int (Int64.ofNat i) (.signed 32),
          (Lowered.ofVariable (tempName (first + i)) t).coerce element⟩ := by
  unfold storedResults
  rw [List.flatMap_assoc]
  congr 1
  funext t
  rw [List.flatMap_map]
  exact List.map_eq_flatMap.symm

end HwStmt

namespace Invocation

theorem stores_reads (type : Option HwType) (first : Nat) (calls : List Invocation) :
    (reads type first calls).flatMap HwStmt.stores = [] := by
  unfold reads
  rw [List.flatMap_assoc, List.flatMap_eq_nil_iff]
  rintro ⟨c, k⟩ -
  cases type <;> rfl

theorem stores_startBody (c : Invocation) : c.startBody.flatMap HwStmt.stores = [] := by
  unfold startBody
  rw [List.flatMap_append, List.flatMap_map]
  exact List.append_eq_nil_iff.2 ⟨List.flatMap_eq_nil_iff.2 fun _ _ ↦ rfl, rfl⟩

end Invocation

namespace Lowering

variable {l : Lowering} {c : Component} {d d' : Draft}

theorem ParallelParts.stores {count : Expr} {index : String} {call : Expr} {results : Option String}
    (p : l.ParallelParts count index call results d d') :
    d'.stores.Perm (d.stores ++ p.stored.flatMap HwStmt.stores) := by
  obtain ⟨e, he, -, hcode⟩ := p.exchange
  have hstart : (p.batch.flatMap Invocation.startBody).flatMap HwStmt.stores = [] := by
    rw [List.flatMap_assoc]
    exact List.flatMap_eq_nil_iff.2 fun c _ ↦ c.stores_startBody
  have hwritten : d'.written = e.written ++ (p.batch.flatMap Invocation.startBody ++
      (Invocation.reads p.type p.first p.batch ++ p.stored)) := by
    rw [Draft.written, hcode, Code.written_append, Code.written_redirect]
    simp [Code.written, Code.exchange, Draft.written]
  rw [Draft.stores, hwritten, List.flatMap_append, List.flatMap_append, List.flatMap_append, hstart,
    Invocation.stores_reads, List.nil_append, List.nil_append]
  exact he.stores.append_right _

theorem written_subset_complete (d : Draft) : d.written ⊆ d.complete.flatMap State.body := by
  intro s hs
  obtain ⟨b, hb, hs⟩ := List.mem_flatMap.1 hs
  obtain ⟨x, hx, rfl⟩ := List.mem_map.1 hb
  rw [d.complete_eq]
  exact List.mem_flatMap.2 ⟨x.rename _, List.mem_map_of_mem (List.mem_append_left _ hx), hs⟩

theorem ComesTo.inComponent (hl : l.Planned) (hc : l.component = .ok c) {code u : Stmt}
    (hcode : (l.program.tree.method l.member.handle).body = some code)
    (h : l.ComesTo (l.expand (l.stmt noExpansion)) code (l.begun c) u d) :
    d.Fresh u.groups ∧ d.current < d.nextState ∧ ∃ d',
      l.stmt (l.expand (l.stmt noExpansion)) u d = .ok d' ∧
        d'.written ⊆ c.states.flatMap State.body ∧
        ∀ name x type, d'.binding? name = some (.variable x type) →
          (c.interface l.program).Declares x type := by
  obtain ⟨hids, hnames⟩ := hl.distinct
  have hgrouped := hl.callsGrouped
  obtain ⟨types, config, identity, entries, -, -, hplan, hm⟩ := hl
  obtain ⟨g, counts, hg⟩ := CallPlan.exists_derives hids hnames hplan
  obtain ⟨hequipped, hn⟩ := equippedAll_body (CallGraph.spans_ofEntryPoints hg.graph) hg.follows hm
    hids hnames hcode
  obtain ⟨code', z, hcode', -, -, hbody, hdeclarations, hstates, hinvocations⟩ := component_eq hc
  obtain rfl := Option.some.inj (hcode'.symm.trans hcode)
  let Γ := c.interface l.program
  have hΓ : Γ.Sees l := ⟨rfl, hinvocations⟩
  have hgroup (_ : Γ.program.CallsGrouped) : code'.Grouped l.program :=
    hgrouped _ (mem_handles_of_body hcode) code' hcode
  have hcovers : Γ.Covers z := by
    have hsub : z.declarations ⊆ c.declarations := by
      rw [hdeclarations]
      exact List.Subset.refl _
    exact hsub
  have hstart : Γ.Covers (l.begun c) := by
    obtain ⟨B, C, R, he⟩ := evolves_body hΓ hgroup hbody
    exact hcovers.mono he.toGrows
  obtain ⟨d', hstmt, ⟨L, hproper⟩, hpersists⟩ := h.lowered hΓ (sound_expandBody hΓ) hgroup hbody
    hcovers (proper_begun hstart).1
  have hgroup' (hp : Γ.program.CallsGrouped) : u.Grouped l.program :=
    fun t ht ↦ hgroup hp t (Stmt.nodes_subset h.mem ht)
  have hcovers' : Γ.Covers d' := List.Subset.trans hpersists.declarations hcovers
  obtain ⟨⟨L', hproper'⟩, -⟩ :=
    (advances_stmt hΓ (sound_expandBody hΓ) hgroup' hstmt).proper hcovers' hproper
  refine ⟨h.fresh hequipped hn (fresh_begin _ _ _ _), hproper.valid.current_lt, d', hstmt, ?_,
    fun name x type hb ↦ hproper'.typed.frame.locals _ (mem_of_lookup hb)⟩
  rw [hstates]
  exact List.Subset.trans hpersists.written (written_subset_complete z)

theorem startsCalls_of_parallel {group : NodeId} {count : Expr} {index : String} {call : Expr}
    {results : Option String} (hp : l.parallel group count index call results d = .ok d') :
    (Stmt.parallel group count index call results).startsCalls = true := by
  obtain ⟨copies, callee, args, batch, d₁, -, hcallee, -⟩ := parallel_eq_ok hp
  cases call with
  | call id target args =>
    refine List.any_eq_true.2 ⟨.call id target args, ?_, rfl⟩
    exact List.mem_flatMap.2 ⟨_, by simp [Stmt.exprs], Expr.mem_nodes_self _⟩
  | _ => cases hcallee

/-- A parallel invocation in the body of a planned member; there is none in what is expanded in it. Its
calls run in one batch, and the call of each number takes the slot of this number and has the arguments
for this index. Each cell of the array for results gets one store, of the temporary into which the
result of the call of its number is read. Afterwards names are bound as before, except that the name of
the array is bound if it was not. -/
theorem spread_parallel (hl : l.Planned) (hc : l.component = .ok c) {code : Stmt}
    (hcode : (l.program.tree.method l.member.handle).body = some code) {group : NodeId}
    {count : Expr} {index : String} {call : Expr} {results : Option String}
    (h : l.ComesTo (l.expand (l.stmt noExpansion)) code (l.begun c)
      (.parallel group count index call results) d) (ho : d.isClosed = false) :
    ∃ d', l.stmt (l.expand (l.stmt noExpansion)) (.parallel group count index call results) d =
        .ok d' ∧ d'.written ⊆ c.states.flatMap State.body ∧
      ∃ p : l.ParallelParts count index call results d d',
        (results = none → d'.stores.Perm d.stores) ∧
        ∀ name ∈ results, ∃ array element length,
          d'.binding? name = some (.variable array (.array element length)) ∧
          d'.stores.Perm (d.stores ++ p.type.toList.flatMap fun t ↦
            (List.range p.copies.toNat).map fun i ↦ ⟨array, .int (Int64.ofNat i) (.signed 32),
              (Lowered.ofVariable (tempName (p.first + i)) t).coerce element⟩) := by
  obtain ⟨hfresh, hcurrent, d', hstmt, hwritten, -⟩ := h.inComponent hl hc hcode
  refine ⟨d', hstmt, hwritten, ?_⟩
  rw [stmt, if_neg (by simp [ho])] at hstmt
  have hgroup : group ∈ (Stmt.parallel group count index call results).groups := by
    rw [Stmt.groups_eq, Stmt.ownGroups, if_pos (startsCalls_of_parallel hstmt)]
    exact List.mem_append_left _ List.mem_cons_self
  obtain ⟨p⟩ := parts_of_parallel hstmt hcurrent fun callee ↦ hfresh group hgroup callee
  refine ⟨p, fun hnone ↦ ?_, fun name hname ↦ ?_⟩
  · have hperm := p.stores
    rwa [p.discarded hnone, List.flatMap_nil, List.append_nil] at hperm
  · obtain ⟨array, element, length, hbinding, hstored⟩ := p.kept name hname
    refine ⟨array, element, length, hbinding, ?_⟩
    have hperm := p.stores
    rwa [hstored, HwStmt.stores_storedResults] at hperm

end Lowering

def spreadCalls (index results : String) : List TypeDecl :=
  let number : TypeRef := .int 32 true
  let call : Expr := .call 0 ⟨"Math", "Same", [number]⟩ [.getLocal 0 index]
  [{ fullName := "Math"
     methods :=
      [{ name := "Spread", parameters := [], returnType := number
         body := some (.block 0
          [.parallel 0 (.literal 0 (.i32 2)) index call (some results),
           .ret 0 (some (.arrayElement 0 (.getLocal 0 results) (.literal 0 (.i32 1))))]) },
       { name := "Same", parameters := [⟨"y", number⟩], returnType := number
         body := some (.ret 0 (some (.getParameter 0 "y"))) }] }]

/-- The statement with which a block starts, if it is two copies of a call for an index of the given
name and with an array for the results of the given name. -/
def Stmt.pair? (index results : String) : Stmt → Option Stmt
  | .block _ (.parallel group count i call r :: _) =>
    if count.copies = some 2 ∧ i = index ∧ r = some results then
      some (.parallel group count i call r) else none
  | _ => none

theorem Stmt.pair?_eq_some {index results : String} {s u : Stmt} (h : s.pair? index results = some u) :
    ∃ id group count call rest, u = .parallel group count index call (some results) ∧
      s = .block id (u :: rest) ∧ count.copies = some 2 := by
  unfold pair? at h
  split at h
  · obtain ⟨⟨hcount, rfl, rfl⟩, hu⟩ := Option.ite_none_right_eq_some.1 h
    obtain rfl := Option.some.inj hu
    exact ⟨_, _, _, _, _, rfl, rfl, hcount⟩
  · cases h

def spreader (config : Config) (index results : String) :
    Synthesis (Lowering × Component × Stmt × Stmt × Draft) := do
  let l ← Lowering.ofTypes (spreadCalls index results) config [⟨0, 0⟩] "Math.Spread()"
  let c ← l.component
  let code ← l.require "body" (l.program.tree.method l.member.handle).body
  let u ← l.require "parallel invocation" (code.pair? index results)
  let d ← l.stmt (l.expand (l.stmt Lowering.noExpansion)) u (l.begun c)
  return (l, c, code, u, d)

structure Pair (index results : String) (l : Lowering) (c : Component) (code : Stmt) (group : NodeId)
    (count call : Expr) (d' : Draft) : Prop where
  planned : l.Planned
  component : l.component = .ok c
  body : (l.program.tree.method l.member.handle).body = some code
  comes : l.ComesTo (l.expand (l.stmt Lowering.noExpansion)) code (l.begun c)
    (.parallel group count index call (some results)) (l.begun c)
  opened : (l.begun c).isClosed = false
  lowered : l.stmt (l.expand (l.stmt Lowering.noExpansion))
    (.parallel group count index call (some results)) (l.begun c) = .ok d'
  copies : count.copies = some 2

theorem exists_pair (config : Config) {index results : String} {p : Lowering → Draft → Draft → Prop}
    [∀ l d d', Decidable (p l d d')]
    (hsize : (SyntaxTree.ofTypes (spreadCalls index results)).ids.length ≤ 2 ^ 32)
    (hcheck : Synthesis.check (spreader config index results) (fun (l, c, _, _, d') ↦
      (l.begun c).isClosed = false ∧ p l (l.begun c) d') = true) :
    ∃ (l : Lowering) (c : Component) (code : Stmt) (group : NodeId) (count call : Expr) (d' : Draft),
      Pair index results l c code group count call d' ∧ p l (l.begun c) d' := by
  obtain ⟨x, hx, hcheck⟩ := Synthesis.check_eq_true.1 hcheck
  obtain ⟨l, hl, hx⟩ := Synthesis.bind_eq_ok.1 hx
  obtain ⟨c, hc, hx⟩ := Synthesis.bind_eq_ok.1 hx
  obtain ⟨code, hcode, hx⟩ := Synthesis.bind_eq_ok.1 hx
  obtain ⟨u, hu, hx⟩ := Synthesis.bind_eq_ok.1 hx
  obtain ⟨d, hd, hx⟩ := Synthesis.bind_eq_ok.1 hx
  obtain rfl := Except.ok.inj hx
  obtain ⟨ho, hp⟩ := of_decide_eq_true hcheck
  obtain ⟨id, group, count, call, rest, rfl, rfl, hcount⟩ :=
    Stmt.pair?_eq_some (Lowering.require_eq_ok.1 hu)
  exact ⟨l, c, _, group, count, call, d, ⟨Lowering.planned_ofTypes hsize hl, hc,
    Lowering.require_eq_ok.1 hcode, .first id rest ho, ho, hd, hcount⟩, hp⟩

theorem spread_parallel_pair : ∃ (l : Lowering) (c : Component) (code : Stmt) (group : NodeId)
    (count call : Expr), l.Planned ∧ l.component = .ok c ∧
      (l.program.tree.method l.member.handle).body = some code ∧
      l.ComesTo (l.expand (l.stmt Lowering.noExpansion)) code (l.begun c)
        (.parallel group count "i" call (some "r")) (l.begun c) ∧ (l.begun c).isClosed = false ∧
      ∃ (d' : Draft) (p : l.ParallelParts count "i" call (some "r") (l.begun c) d'),
        p.copies = 2 ∧ d'.written ⊆ c.states.flatMap State.body ∧
        ∃ array element length,
          d'.binding? "r" = some (.variable array (.array element length)) ∧
          d'.stores.Perm ((l.begun c).stores ++ p.type.toList.flatMap fun t ↦
            (List.range 2).map fun i ↦ ⟨array, .int (Int64.ofNat i) (.signed 32),
              (Lowered.ofVariable (tempName (p.first + i)) t).coerce element⟩) := by
  have hsize : (SyntaxTree.ofTypes (spreadCalls "i" "r")).ids.length ≤ 2 ^ 32 := by decide +kernel
  obtain ⟨l, c, code, group, count, call, _, h, -⟩ := exists_pair
    { device := "Zynq-7020" } (p := fun _ _ _ ↦ True) hsize (by decide +kernel)
  obtain ⟨d', -, hwritten, p, -, hstored⟩ :=
    Lowering.spread_parallel h.planned h.component h.body h.comes h.opened
  obtain ⟨array, element, length, hbinding, hperm⟩ := hstored "r" rfl
  have hcopies : p.copies = 2 := Option.some.inj (p.copies_eq.symm.trans h.copies)
  rw [hcopies] at hperm
  exact ⟨l, c, code, group, count, call, h.planned, h.component, h.body, h.comes, h.opened, d', p,
    hcopies, hwritten, array, element, length, hbinding, hperm⟩

/-- If the array for the results has the name of the index, then the name is bound to the array
afterwards, although it was not bound before. -/
theorem exists_index_rebound : ∃ (l : Lowering) (c : Component) (code : Stmt) (group : NodeId)
    (count call : Expr) (d' : Draft), l.Planned ∧ l.component = .ok c ∧
      (l.program.tree.method l.member.handle).body = some code ∧
      l.ComesTo (l.expand (l.stmt Lowering.noExpansion)) code (l.begun c)
        (.parallel group count "r" call (some "r")) (l.begun c) ∧ (l.begun c).isClosed = false ∧
      l.stmt (l.expand (l.stmt Lowering.noExpansion))
        (.parallel group count "r" call (some "r")) (l.begun c) = .ok d' ∧
      (l.begun c).binding? "r" = none ∧ (d'.binding? "r").isSome := by
  have hsize : (SyntaxTree.ofTypes (spreadCalls "r" "r")).ids.length ≤ 2 ^ 32 := by decide +kernel
  obtain ⟨l, c, code, group, count, call, d', h, hbefore, hafter⟩ := exists_pair { device := "Zynq-7020" }
    (p := fun _ d d' ↦ (d.binding? "r").isNone ∧ (d'.binding? "r").isSome) hsize (by decide +kernel)
  exact ⟨l, c, code, group, count, call, d', h.planned, h.component, h.body, h.comes, h.opened,
    h.lowered, Option.isNone_iff_eq_none.1 hbefore, hafter⟩

end Fabric
