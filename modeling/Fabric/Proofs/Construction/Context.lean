import Fabric.Proofs.Construction.Learning

namespace Fabric

namespace Draft

structure SameContext (d d' : Draft) : Prop where
  slots : d'.slots = d.slots
  loops : d'.loops = d.loops
  frame : d'.frame = d.frame
  results : d'.results = d.results

variable {d d' d'' : Draft}

namespace SameContext

theorem refl (d : Draft) : d.SameContext d := ⟨rfl, rfl, rfl, rfl⟩

theorem trans (h : d.SameContext d') (h' : d'.SameContext d'') : d.SameContext d'' :=
  ⟨h'.slots.trans h.slots, h'.loops.trans h.loops, h'.frame.trans h.frame,
    h'.results.trans h.results⟩

theorem ofScope (h : d.SameScope d') : d.SameContext d' := ⟨h.slots, h.loops, h.frame, h.results⟩

theorem choice (d : Draft) (type : HwType) (c a b : HwExpr) (cost : Binary64) :
    d.SameContext ((d.temporary type "conditional value").2.emit
      (.branch c [.setVariable (tempName d.temporaries) a] [.setVariable (tempName d.temporaries) b])
      cost) :=
  have htemporary : d.SameContext (d.temporary type "conditional value").2 := ⟨rfl, rfl, rfl, rfl⟩
  htemporary.trans (ofScope (sameScope_emit _ _ _))

end SameContext

/-- Declaring a variable keeps the states and what names and results stand for. -/
theorem kept_declare (d : Draft) (name : String) (type : HwType) (comment : String) :
    (d.declare name type comment).2.code = d.code ∧
      (d.declare name type comment).2.current = d.current ∧
      d.SameContext (d.declare name type comment).2 := by
  unfold declare
  dsimp only
  split <;> exact ⟨rfl, rfl, rfl, rfl, rfl, rfl⟩

theorem sameContext_settleArguments (d : Draft) (callee : String) (arguments : List Argument) :
    d.SameContext (settleArguments callee arguments d).2 := by
  induction arguments generalizing d with
  | nil => exact .refl d
  | cons a rest ih =>
    unfold settleArguments
    dsimp only
    split
    · have ht : d.SameContext (d.temporary a.type ("argument " ++ a.name ++ " of " ++ callee)).2 :=
        ⟨rfl, rfl, rfl, rfl⟩
      exact (ht.trans (.ofScope (sameScope_emit _ _ _))).trans (ih _)
    · exact ih d

theorem sameContext_collect (calls : List Invocation) (d : Draft) :
    d.SameContext (collect calls d).2 := by
  induction calls generalizing d with
  | nil => exact .refl d
  | cons c rest ih =>
    have hpush (d : Draft) (s : HwStmt) : d.SameContext (d.push s) := ⟨rfl, rfl, rfl, rfl⟩
    unfold collect
    cases c.returnType with
    | none => exact (hpush d _).trans (ih _)
    | some type =>
      have ht : d.SameContext (d.temporary type ("result of " ++ c.target)).2 := ⟨rfl, rfl, rfl, rfl⟩
      exact ((ht.trans (hpush _ _)).trans (hpush _ _)).trans (ih _)

theorem sameContext_handshake (d : Draft) (calls : List Invocation) :
    d.SameContext (d.handshake calls).2 := by
  obtain ⟨label, heq⟩ := d.handshake_eq calls
  have hopen : d.SameContext (d.openState (label "await idle")) :=
    .ofScope (d.sameScope_openState _)
  have hawait (d : Draft) : d.SameContext (d.awaitCalls calls label) := ⟨rfl, rfl, rfl, rfl⟩
  rw [heq]
  exact (hopen.trans (hawait _)).trans (sameContext_collect calls _)

end Draft

namespace Lowering

variable {l : Lowering} {expand : Expansion} {d d' : Draft}

theorem sameContext_expr {e : Expr} {v : Lowered} (h : l.expr e d = .ok (v, d')) :
    d.SameContext d' :=
  expr_choices .refl .trans .choice h

theorem sameContext_arguments {h : MemberHandle} {args : List Expr} {arguments : List Argument}
    (ha : l.arguments h args d = .ok (arguments, d')) : d.SameContext d' :=
  evalArguments_choices .refl .trans .choice (arguments_eq_ok ha).2

/-- A call takes the next slot, and nothing else changes but states and declarations. -/
theorem sameContext_invocation {h : MemberHandle} {group : NodeId} {args : List Expr} {c : Invocation}
    (hi : l.invocation h group args d = .ok (c, d')) :
    c.slot = d.nextSlot (group, l.program.tree.memberFullName h) ∧
    { d with slots := ((group, l.program.tree.memberFullName h), c.slot + 1) :: d.slots }.SameContext
      d' := by
  obtain ⟨slot, d₁, arguments, d₂, type, hslot, harguments, -, rfl, rfl⟩ := invocation_eq_ok hi
  obtain ⟨hnumber, -, rfl⟩ := takeSlot_eq hslot
  exact ⟨hnumber, (sameContext_arguments harguments).trans (d₂.sameContext_settleArguments _ _)⟩

theorem frame_copies {h : MemberHandle} {group : NodeId} {args : List Expr} {index : String}
    {first count : Nat} {calls : List Invocation}
    (hc : l.copies h group args index first count d = .ok (calls, d')) :
    d'.frame = { d.frame with locals := d'.frame.locals } := by
  induction count generalizing first d calls with
  | zero =>
    obtain ⟨-, rfl⟩ := Prod.mk.inj (Except.ok.inj hc)
    rfl
  | succ count ih =>
    obtain ⟨c, d₁, others, hcall, hothers, -⟩ := copies_eq_ok hc
    rw [ih hothers, (sameContext_invocation hcall).2.frame]
    rfl

end Lowering

def Expansion.KeepsFrame (expand : Expansion) : Prop :=
  ∀ ⦃h : MemberHandle⦄ ⦃args : List Expr⦄ ⦃d d' : Draft⦄ ⦃value : Option Lowered⦄,
    expand h args d = .ok (value, d') → d'.frame = d.frame

namespace Lowering

variable {l : Lowering} {expand : Expansion} {d d' : Draft}

theorem keepsFrame_expand (l : Lowering) (body : Stmt → Draft → Synthesis Draft) :
    (l.expand body).KeepsFrame := by
  intro h args d d' value he
  obtain ⟨code, arguments, d₁, returnType, d₂, -, harguments, -, -, -, rfl⟩ := expand_eq he
  have hvariable : (resultVariable (l.program.tree.memberFullName h) returnType d₁).2.frame =
      d₁.frame := by
    cases returnType <;> rfl
  rw [(Draft.sameScope_leaveCall d₂ _ _).frame]
  exact hvariable.trans (sameContext_arguments harguments).frame

section

variable (hexpand : expand.KeepsFrame)

include hexpand

theorem frame_gather {calls : List Expr} {batch : List (NodeId × Invocation)}
    (hg : l.gather expand calls d = .ok (batch, d')) : d'.frame = d.frame := by
  induction calls generalizing d batch with
  | nil =>
    obtain ⟨-, rfl⟩ := Prod.mk.inj (Except.ok.inj hg)
    rfl
  | cons e rest ih =>
    obtain ⟨h, args, -, ⟨-, value, d₁, hvalue, hg⟩ | ⟨-, group, c, d₁, others, -, hc, hothers, -⟩⟩ :=
      gather_eq_ok hg
    · have hfirst : d₁.frame = d.frame := hexpand hvalue
      exact (ih hg).trans hfirst
    · exact (ih hothers).trans (sameContext_invocation hc).2.frame

theorem frame_invoke {calls : List Expr} (hi : l.invoke expand calls d = .ok d') :
    d'.frame = d.frame := by
  have hresults (d : Draft) (results : List (NodeId × Option Lowered)) :
      (results.foldl (fun d x ↦ d.setResult x.1 x.2) d).frame = d.frame := by
    induction results generalizing d with
    | nil => rfl
    | cons x rest ih => exact ih _
  obtain ⟨batch, d₁, hbatch, ⟨-, rfl⟩ | ⟨-, rfl⟩⟩ := invoke_eq_ok hi
  · exact frame_gather hexpand hbatch
  · exact (hresults _ _).trans ((d₁.sameContext_handshake _).frame.trans (frame_gather hexpand hbatch))

end

theorem frame_storeIn {name : String} {type : HwType} {prepare : Expr → Draft → Synthesis Draft}
    {e : Expr} (hprepare : ∀ {d d' : Draft}, prepare e d = .ok d' → d'.frame = d.frame)
    (h : l.storeIn name type prepare e d = .ok d') : d'.frame = d.frame := by
  obtain ⟨d₁, v, d₂, h₁, h₂, rfl⟩ := storeIn_eq_ok h
  exact ((Draft.sameScope_emit _ _ _).frame.trans (sameContext_expr h₂).frame).trans (hprepare h₁)

theorem frame_guarded {prepare : Expr → Draft → Synthesis Draft} {e : Expr}
    (hprepare : ∀ c {d d' : Draft}, prepare c d = .ok d' → d'.frame = d.frame)
    (h : l.guarded prepare e d = .ok d') : d'.frame = d.frame := by
  cases guarded_eq_ok h with
  | @conditional id condition ifTrue ifFalse type c d₁ d₂ d₃ _ hc htrue hfalse =>
    have hready : (d₁.reserve c.cost).frame = d.frame :=
      (d₁.sameScope_reserve c.cost).frame.trans (sameContext_expr hc).frame
    have h₂ := frame_storeIn (hprepare ifTrue) htrue
    have h₃ := frame_storeIn (hprepare ifFalse) hfalse
    exact h₃.trans (h₂.trans hready)
  | @binary id op lhs rhs left d₁ d₀ d₂ hleft hemit hright =>
    have hready : d₀.frame = d.frame := hemit ▸
      (d₁.sameScope_emit _ _).frame.trans (sameContext_expr hleft).frame
    have h₂ := frame_storeIn (hprepare rhs) hright
    exact h₂.trans hready

theorem frame_prepareUpTo (hexpand : expand.KeepsFrame) (rounds : Nat) {e : Expr}
    (h : l.prepareUpTo expand rounds e d = .ok d') : d'.frame = d.frame := by
  induction rounds generalizing e d d' with
  | zero =>
    obtain rfl := Except.ok.inj h
    rfl
  | succ rounds ih =>
    obtain ⟨-, rfl⟩ | ⟨g, d₁, -, hg, h⟩ | ⟨d₁, -, hcalls, h⟩ := prepareUpTo_eq_ok h
    · rfl
    · exact (ih h).trans (frame_guarded (fun _ _ _ hrun ↦ ih hrun) hg)
    · exact (ih h).trans (frame_invoke hexpand hcalls)

/-- Preparing an expression keeps the frame. -/
theorem frame_prepare (hexpand : expand.KeepsFrame) {e : Expr}
    (h : l.prepare expand e d = .ok d') : d'.frame = d.frame :=
  frame_prepareUpTo hexpand _ h

end Lowering

end Fabric
