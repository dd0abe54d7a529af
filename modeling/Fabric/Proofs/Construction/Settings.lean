import Fabric.Proofs.Syntax.Nodes
import Fabric.Synthesis.Basic

namespace Fabric

def Program.under (p : Program) (c : Config) : Program := { p with config := c }

namespace Lowering

def under (l : Lowering) (c : Config) : Lowering := { l with program := l.program.under c }

variable (l : Lowering) (c : Config) (expand : Expansion)

theorem infer_under (d : Draft) (e : Expr) : (l.under c).infer d e = l.infer d e := by
  induction e using Expr.induction with
  | _ => simp only [infer, *]; rfl

theorem expr_under (e : Expr) (d : Draft) : (l.under c).expr e d = l.expr e d := by
  induction e using Expr.induction generalizing d with
  | _ => simp only [expr, infer_under, *]; rfl

theorem evalArguments_under (callee : String) (args : List (Parameter × Expr)) (d : Draft) :
    (l.under c).evalArguments callee args d = l.evalArguments callee args d := by
  induction args generalizing d with
  | nil => rfl
  | cons a args ih => simp only [evalArguments, expr_under, ih]; rfl

theorem invocation_under : (l.under c).invocation = l.invocation := by
  funext h group args d
  simp only [invocation, arguments, evalArguments_under]
  rfl

theorem gather_under (calls : List Expr) (d : Draft) :
    (l.under c).gather expand calls d = l.gather expand calls d := by
  induction calls generalizing d with
  | nil => rfl
  | cons e calls ih => simp only [gather, invocation_under, ih]; rfl

theorem prepareUpTo_under (rounds : Nat) (e : Expr) (d : Draft) :
    (l.under c).prepareUpTo expand rounds e d = l.prepareUpTo expand rounds e d := by
  induction rounds generalizing e d with
  | zero => rfl
  | succ rounds ih =>
    -- The operands of an operator that is not always evaluated are passed on as a function.
    have hself : (l.under c).prepareUpTo expand rounds = l.prepareUpTo expand rounds := by
      funext e d
      exact ih e d
    simp only [prepareUpTo, guarded, storeIn, invoke, infer_under, expr_under, gather_under, hself]

theorem prepare_under : (l.under c).prepare expand = l.prepare expand := by
  funext e d
  exact l.prepareUpTo_under ..

theorem copies_under (h : MemberHandle) (group : NodeId) (args : List Expr) (index : String)
    (first count : Nat) (d : Draft) :
    (l.under c).copies h group args index first count d =
      l.copies h group args index first count d := by
  induction count generalizing first d with
  | zero => rfl
  | succ count ih => simp only [copies, invocation_under, ih]

theorem parallel_under : (l.under c).parallel = l.parallel := by
  funext group count index call results d
  simp only [parallel, copies_under]
  rfl

theorem value_under : (l.under c).value expand = l.value expand := by
  funext e type d
  unfold value
  simp only [expr_under, prepare_under]

theorem condition_under : (l.under c).condition expand = l.condition expand := by
  funext e d
  simp only [condition, expr_under, prepare_under]

theorem declare_under : (l.under c).declare expand = l.declare expand := by
  funext name type init d
  simp only [declare, value_under]
  rfl

theorem assign_under : (l.under c).assign expand = l.assign expand := by
  funext target e d
  simp only [assign, value_under]
  rfl

theorem store_under : (l.under c).store expand = l.store expand := by
  funext array index value d
  simp only [store, expr_under, prepare_under]
  rfl

theorem ret_under : (l.under c).ret expand = l.ret expand := by
  funext value d
  simp only [ret, value_under, prepare_under]
  rfl

theorem eval_under : (l.under c).eval expand = l.eval expand := by
  funext e d
  simp only [eval, expr_under, prepare_under]

theorem stmt_under (s : Stmt) (d : Draft) : (l.under c).stmt expand s d = l.stmt expand s d := by
  induction s using Stmt.induction generalizing d with
  | declare => simp only [stmt, declare_under]
  | assign => simp only [stmt, assign_under]
  | store => simp only [stmt, store_under]
  | branch id condition thenBranch elseBranch hthen helse =>
    have helse (d : Draft) :
        (l.under c).elseStmt expand elseBranch d = l.elseStmt expand elseBranch d := by
      cases elseBranch with
      | none => rfl
      | some s => simp only [elseStmt, helse s rfl]
    simp only [stmt, condition_under, hthen, helse]
  | whileLoop id condition body hbody => simp only [stmt, condition_under, hbody]
  | forLoop id init condition step body hinit hstep hbody =>
    have hinit (d : Draft) : (l.under c).stmtOption expand init d = l.stmtOption expand init d := by
      cases init with
      | none => rfl
      | some s => simp only [stmtOption, hinit s rfl]
    have hstep (head : Nat) (d : Draft) :
        (l.under c).stepStmt expand step head d = l.stepStmt expand step head d := by
      cases step with
      | none => rfl
      | some s => simp only [stepStmt, hstep s rfl]
    simp only [stmt, condition_under, hinit, hstep, hbody]
  | ret => simp only [stmt, ret_under]
  | eval => simp only [stmt, eval_under]
  | block id stmts hstmts =>
    have hlist (d : Draft) : (l.under c).stmtList expand stmts d = l.stmtList expand stmts d := by
      clear id
      induction stmts generalizing d with
      | nil => rfl
      | cons s stmts ih =>
        rw [List.forall_mem_cons] at hstmts
        simp only [stmtList, hstmts.1, ih hstmts.2]
    simp only [stmt, hlist]
  | breakLoop => simp only [stmt]; rfl
  | continueLoop => simp only [stmt]; rfl
  | parallel => simp only [stmt, parallel_under]

theorem expand_under (body : Stmt → Draft → Synthesis Draft) :
    (l.under c).expand body = l.expand body := by
  funext h args d
  simp only [Lowering.expand, arguments, evalArguments_under]
  rfl

theorem body_under : (l.under c).body = l.body := by
  funext s d
  have hinner : (l.under c).stmt noExpansion = l.stmt noExpansion := by
    funext s d
    exact l.stmt_under ..
  simp only [body, stmt_under, expand_under, hinner]

/-- The component of a member does not depend on the configuration. -/
theorem component_under : (l.under c).component = l.component := by
  simp only [component, body_under]
  rfl

end Lowering

end Fabric
