import Fabric.Proofs.Resolution.Lengths

namespace Fabric

namespace ArrayTable

variable {c : Config} {table table' table'' : ArrayTable} {array : String} {length : UInt32}

def Keeps (table table' : ArrayTable) : Prop :=
  ∀ array x, table.entry? array = some x → table'.entry? array = some x

theorem Keeps.refl (table : ArrayTable) : table.Keeps table := fun _ _ hx ↦ hx

theorem Keeps.trans (h : table.Keeps table') (h' : table'.Keeps table'') : table.Keeps table'' :=
  fun array x hx ↦ h' array x (h array x hx)

theorem keeps_record (h : table.record array length = .ok (some table')) : table.Keeps table' := by
  unfold record at h
  split at h
  next habsent =>
    obtain rfl := Option.some.inj (Except.ok.inj h)
    intro other x hx
    have hne : other ≠ array := by
      rintro rfl
      rw [habsent] at hx
      cases hx
    unfold entry?
    rw [Dictionary.get?_insert, if_neg hne]
    exact hx
  · split at h <;> cases h

theorem keeps_recordAll (found : List (String × UInt32)) (table : ArrayTable) :
    table.Keeps (recordAll found table).2 := by
  induction found generalizing table with
  | nil => exact .refl table
  | cons p rest ih =>
    unfold recordAll
    split
    · exact .refl table
    · exact ih table
    next next hrecord => exact (keeps_record hrecord).trans (ih next)

theorem recordAll_append_keeps (before after : List (String × UInt32)) (table : ArrayTable) :
    (recordAll before table).2.Keeps (recordAll (before ++ after) table).2 := by
  induction before generalizing table with
  | nil => exact keeps_recordAll after table
  | cons p rest ih =>
    rw [List.cons_append]
    unfold recordAll
    split
    · exact .refl table
    · exact ih table
    next next hrecord => exact ih next

def Holds (c : Config) (table : ArrayTable) : Prop :=
  ∀ array n, c.arrayLengths.get? array = some n → table.entry? array = some ⟨n, .configured⟩

theorem holds_ofConfig (c : Config) : (ofConfig c).Holds c := by
  intro array n hn
  unfold entry?
  rw [ofConfig, Dictionary.get?_mapValues, hn]
  rfl

theorem Holds.keeps (h : table.Holds c) (hkeeps : table.Keeps table') : table'.Holds c :=
  fun array n hn ↦ hkeeps array _ (h array n hn)

end ArrayTable

theorem SyntaxTree.keeps_inferLengths (t : SyntaxTree) (table : ArrayTable) :
    table.Keeps (t.inferLengths table).2 :=
  ArrayTable.keeps_recordAll _ table

theorem ResolvedTree.keeps_rounds {fuel : Nat} {r r' : ResolvedTree} (h : rounds fuel r = .ok r') :
    r.arrays.Keeps r'.arrays := by
  refine rounds_induction (P := fun r' ↦ r.arrays.Keeps r'.arrays) (fun r' _ _ hr hi ↦ ?_) (.refl _) h
  have hnext := r'.tree.foldConstants.1.keeps_inferLengths r'.arrays
  rw [hi] at hnext
  exact hr.trans hnext

namespace SyntaxTree

variable {t : SyntaxTree} {c : Config} {r : ResolvedTree} {table : ArrayTable} {array : String}
  {n : UInt32}

def HasBody (t : SyntaxTree) (member : String) (body : Stmt) : Prop :=
  ∃ d ∈ t.types, ∃ m ∈ d.methods, d.memberFullName m = member ∧ m.body = some body

/-- A place of a tree gives an array a length that is known under a table. -/
inductive Gives (t : SyntaxTree) (table : ArrayTable) : String → UInt32 → Prop
  | field {d : TypeDecl} {f : FieldDecl} {e : Expr} {n : UInt32} (hd : d ∈ t.types)
    (hf : f ∈ d.fields) (he : f.initializer = some e)
    (hn : LengthScope.lengthOf ⟨t, table, d.fullName⟩ e = some n) :
    Gives t table (fieldArrayKey d.fullName f.name) n
  | declare {member : String} {body : Stmt} {id : NodeId} {name : String} {type : TypeRef}
    {init : Expr} {n : UInt32} (hbody : t.HasBody member body)
    (hs : .declare id name type (some init) ∈ body.nodes)
    (hn : LengthScope.lengthOf ⟨t, table, member⟩ init = some n) :
    Gives t table (memberArrayKey member name) n
  | assign {member : String} {body : Stmt} {id : NodeId} {target : AssignTarget} {value : Expr}
    {n : UInt32} (hbody : t.HasBody member body) (hs : .assign id target value ∈ body.nodes)
    (hn : LengthScope.lengthOf ⟨t, table, member⟩ value = some n) :
    Gives t table (LengthScope.targetKey ⟨t, table, member⟩ target) n
  | ret {member : String} {body : Stmt} {id : NodeId} {value : Expr} {n : UInt32}
    (hbody : t.HasBody member body) (hs : .ret id (some value) ∈ body.nodes)
    (hn : LengthScope.lengthOf ⟨t, table, member⟩ value = some n) :
    Gives t table (returnArrayKey member) n
  | parallel {member : String} {body : Stmt} {id : NodeId} {count : Expr} {index : String}
    {call : Expr} {results : String} {n : UInt32} (hbody : t.HasBody member body)
    (hs : .parallel id count index call (some results) ∈ body.nodes)
    (hn : count.asCount = some n) : Gives t table (memberArrayKey member results) n
  | argument {member : String} {body : Stmt} {id : NodeId} {target : MemberRef} {args : List Expr}
    {callee : MemberHandle} {parameter : Parameter} {arg : Expr} {n : UInt32}
    (hbody : t.HasBody member body) (hcall : .call id target args ∈ body.exprNodes)
    (hcallee : t.resolveCall target = some callee)
    (harg : (parameter, arg) ∈ (t.method callee).parameters.zip args)
    (harray : parameter.type.isArray = true)
    (hn : LengthScope.lengthOf ⟨t, table, member⟩ arg = some n) :
    Gives t table (memberArrayKey (t.memberFullName callee) parameter.name) n

theorem HasBody.mem_observed {member : String} {body : Stmt} (hbody : t.HasBody member body)
    {p : String × UInt32} (hp : p ∈ LengthScope.observeBody ⟨t, table, member⟩ body) :
    p ∈ t.types.flatMap (t.observeType table) := by
  obtain ⟨d, hd, m, hm, rfl, hbody⟩ := hbody
  refine List.mem_flatMap.2 ⟨d, hd, List.mem_append_right _ (List.mem_flatMap.2 ⟨m, hm, ?_⟩)⟩
  rw [hbody]
  simpa using hp

theorem HasBody.mem_of_stmt {member : String} {body s : Stmt} (hbody : t.HasBody member body)
    (hs : s ∈ body.nodes) {p : String × UInt32}
    (hp : LengthScope.observeStmt ⟨t, table, member⟩ s = some p) :
    p ∈ t.types.flatMap (t.observeType table) :=
  hbody.mem_observed (List.mem_append_left _ (List.mem_filterMap.2 ⟨s, hs, hp⟩))

theorem Gives.mem_observed (h : t.Gives table array n) :
    (array, n) ∈ t.types.flatMap (t.observeType table) := by
  cases h with
  | @field d f e n hd hf he hn =>
    refine List.mem_flatMap.2 ⟨d, hd, List.mem_append_left _ (List.mem_filterMap.2 ⟨f, hf, ?_⟩)⟩
    rw [he, Option.bind_some, hn, Option.map_some]
  | declare hbody hs hn | assign hbody hs hn | ret hbody hs hn | parallel hbody hs hn =>
    refine hbody.mem_of_stmt hs ?_
    rw [LengthScope.observeStmt, hn]
    rfl
  | argument hbody hcall hcallee harg harray hn =>
    refine hbody.mem_observed (List.mem_append_right _ (List.mem_flatMap.2 ⟨_, hcall, ?_⟩))
    simp only [LengthScope.observeCall, hcallee]
    refine List.mem_filterMap.2 ⟨_, harg, ?_⟩
    simp only [harray, if_true, hn, Option.map_some]

/-- Every array has one length: the settings stand in the table that resolution gives, and where a
field, a statement or an argument of a call in a body is given a known length, its array has an entry,
which is configured or has that length. No run of inference, not even one that fails, changes an entry
at any point. -/
theorem lengths_agree (hr : t.resolve c = .ok r) :
    r.arrays.Holds c ∧
      (∀ array n, r.tree.Gives r.arrays array n →
        ∃ x, r.arrays.entry? array = some x ∧ (x.source = .configured ∨ x.length = n)) ∧
      ∀ (t : SyntaxTree) (table : ArrayTable) (before after : List (String × UInt32)),
        t.types.flatMap (t.observeType table) = before ++ after →
          table.Keeps (table.recordAll before).2 ∧
          (table.recordAll before).2.Keeps (t.inferLengths table).2 := by
  refine ⟨?_, fun array n hgives ↦ ?_, fun t table before after hfound ↦ ?_⟩
  · unfold resolve at hr
    split at hr
    · cases hr
    · exact (ArrayTable.holds_ofConfig c).keeps (ResolvedTree.keeps_rounds hr)
  · exact ArrayTable.entry_of_recordAll (settled_of_resolve hr).lengths hgives.mem_observed
  · rw [inferLengths, hfound]
    exact ⟨ArrayTable.keeps_recordAll before table, ArrayTable.recordAll_append_keeps before after table⟩

end SyntaxTree

def passed : List TypeDecl :=
  let ints : TypeRef := .array .i32
  let target (name : String) : MemberRef := ⟨"K", name, [ints]⟩
  let words (n : Int64) : Expr := .newArray 0 .i32 (.literal 0 (.int n 32 true))
  let count (name : String) : MethodDecl :=
    { name := name, parameters := [⟨"xs", ints⟩], returnType := .i32
      body := some (.ret 0 (some (.literal 0 (.i32 0)))) }
  [{ fullName := "K"
     fields := [{ name := "first", type := .i32
                  initializer := some (.call 0 (target "Seed") [words 3]) }]
     methods := [count "Seed", count "Sum",
      { name := "Run", parameters := [], returnType := .i32
        body := some (.block 0 [.declare 0 "data" ints (some (words 4)),
          .ret 0 (some (.call 0 (target "Sum") [.getLocal 0 "data"]))]) }] }]

def passedSettings : Config :=
  { device := "Zynq-7020", arrayLengths := Dictionary.empty.insert "K.Sum(i32[])::xs" 5 }

/-- The local of `passed` has the length of its initializer, the parameter to which it is passed that of
the settings. -/
theorem lengths_agree_passed :
    ∃ r, (SyntaxTree.ofTypes passed).resolve passedSettings = .ok r ∧
      r.arrays.entry? "K.Run()::data" = some ⟨4, .inferred⟩ ∧
      r.arrays.entry? "K.Sum(i32[])::xs" = some ⟨5, .configured⟩ ∧ r.arrays.Holds passedSettings := by
  have hresult : ((SyntaxTree.ofTypes passed).resolve passedSettings).toOption.map (fun r ↦
      (r.arrays.entry? "K.Run()::data", r.arrays.entry? "K.Sum(i32[])::xs")) =
        some (some ⟨4, .inferred⟩, some ⟨5, .configured⟩) := by decide +kernel
  cases hr : (SyntaxTree.ofTypes passed).resolve passedSettings with
  | error e => rw [hr] at hresult; cases hresult
  | ok r =>
    rw [hr] at hresult
    obtain ⟨hlocal, hparameter⟩ := Prod.mk.inj (Option.some.inj hresult)
    exact ⟨r, rfl, hlocal, hparameter, (SyntaxTree.lengths_agree hr).1⟩

/-- The lengths that calls in the initializers of fields give the array parameters of their callees. -/
def SyntaxTree.initializerArguments (t : SyntaxTree) (table : ArrayTable) : List (String × UInt32) :=
  t.types.flatMap fun d ↦ d.fields.flatMap fun f ↦ f.initializer.toList.flatMap fun e ↦
    e.nodes.flatMap (LengthScope.observeCall ⟨t, table, d.fullName⟩)

/-- A call in the initializer of a field gives an array parameter a length, and the table has no entry
for it. -/
theorem initializerArguments_passed :
    ∃ r, (SyntaxTree.ofTypes passed).resolve passedSettings = .ok r ∧
      ("K.Seed(i32[])::xs", 3) ∈ r.tree.initializerArguments r.arrays ∧
      r.arrays.entry? "K.Seed(i32[])::xs" = none := by
  have hresult : ((SyntaxTree.ofTypes passed).resolve passedSettings).toOption.map (fun r ↦
      (r.tree.initializerArguments r.arrays, r.arrays.entry? "K.Seed(i32[])::xs")) =
        some ([("K.Seed(i32[])::xs", 3)], none) := by decide +kernel
  cases hr : (SyntaxTree.ofTypes passed).resolve passedSettings with
  | error e => rw [hr] at hresult; cases hresult
  | ok r =>
    rw [hr] at hresult
    obtain ⟨hfound, habsent⟩ := Prod.mk.inj (Option.some.inj hresult)
    exact ⟨r, rfl, hfound ▸ List.mem_singleton_self _, habsent⟩

end Fabric
