import Uncompile.C.Expr

/-!
# C statements
-/

namespace Uncompile

inductive Stmt where
  | label (name : String)
  | assign (lhs rhs : CExpr)
  | ifThen (cond : CExpr) (body : Stmt)
  | goto (label : String)
  | ret (value : Option CExpr)
  | expr (e : CExpr)
  /-- Inline assembly, for what has no C form. -/
  | asm (text : String)

namespace Stmt

def ifGoto (cond : CExpr) (label : String) : Stmt := ifThen cond (goto label)

/-- The expressions of a statement with all their parts, in source order. -/
def subterms : Stmt → List CExpr
  | assign lhs rhs => lhs.subterms ++ rhs.subterms
  | ifThen cond body => cond.subterms ++ body.subterms
  | ret (some e) => e.subterms
  | expr e => e.subterms
  | label _ | goto _ | asm _ | ret none => []

/-- Offset and size of every stack variable a statement mentions. -/
def stackVars (stmt : Stmt) : List (Int × Nat) := stmt.subterms.filterMap CExpr.asStackVar?

end Stmt

end Uncompile
