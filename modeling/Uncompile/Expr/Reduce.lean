import Uncompile.Expr.Linear

/-!
# Reduction

`Expr.reduce` simplifies an expression from the leaves up: constants are
folded and moved to the right, sums become linear forms, masks merge, and the
flag formulas that comparisons leave behind turn back into comparisons.
-/

namespace Uncompile

namespace Expr

def ofTruth (holds : Bool) : Expr := const (if holds then 1 else 0)

/-- A unary operator on a reduced operand. -/
def reduceUnary (op : UnOp) (arg : Expr) : Expr :=
  match op, arg with
  | op, const value => const (op.fold value)
  | .neg, arg => (Linear.ofExpr (unary .neg arg)).toExpr
  | .not, unary .not inner => inner
  | .lnot, unary .lnot inner =>
    if inner.isBoolean then inner else unary .lnot (unary .lnot inner)
  | .lnot, binary comparison lhs rhs =>
    match comparison.negate? with
    | some inverse => binary inverse lhs rhs
    | none => unary .lnot (binary comparison lhs rhs)
  | op, arg => unary op arg

/-- Conjunction with a constant mask. Nested masks merge into one. -/
def reduceMask (arg : Expr) (mask : Int) : Expr :=
  if mask = 0 then const 0
  else if maskAnd mask mask32 = mask32 then arg
  else match arg with
    | binary .and inner (const other) => inner.reduceMask (maskAnd other mask)
    | arg => binary .and arg (const mask)

def reduceAnd (lhs rhs : Expr) : Expr :=
  match rhs with
  | const mask => lhs.reduceMask mask
  | rhs => if lhs = rhs then lhs else binary .and lhs rhs

/-- The other operand when `inner` is `outer ≠ y` or `y ≠ outer` for a Boolean
`y`. -/
def stripInequality? (outer inner : Expr) : Option Expr :=
  match inner with
  | binary .ne lhs rhs =>
    if lhs = outer ∧ rhs.isBoolean then some rhs
    else if rhs = outer ∧ lhs.isBoolean then some lhs
    else none
  | _ => none

/-- The comparison of a Boolean with `0` or `1`. -/
def reduceBooleanTest? (op : BinOp) (lhs rhs : Expr) : Option Expr :=
  if lhs.isBoolean then
    if (op = .ne ∧ rhs = const 0) ∨ (op = .eq ∧ rhs = const 1) then some lhs
    else if (op = .eq ∧ rhs = const 0) ∨ (op = .ne ∧ rhs = const 1) then
      some (reduceUnary .lnot lhs)
    else none
  else none

/-- An equality or inequality whose operands cannot be moved across it. -/
def reduceEquality (op : BinOp) (lhs rhs : Expr) : Expr :=
  match reduceBooleanTest? op lhs rhs with
  | some result => result
  | none =>
    match (stripInequality? lhs rhs).or (stripInequality? rhs lhs) with
    | some rest => if op = .ne then rest else reduceUnary .lnot rest
    | none => binary op lhs rhs

/-- A comparison of reduced operands. -/
def reduceComparison (op : BinOp) (lhs rhs : Expr) : Expr :=
  if lhs = rhs then ofTruth op.holdsOfEqual
  else if op.isEquality then
    match lhs, rhs with
    | binary .sub a b, const value =>
      if value = 0 then reduceComparison op a b
      else reduceEquality op (binary .sub a b) (const value)
    | binary .add a (const k), const value =>
      reduceComparison op a (const (wrap32 (value - k)))
    | lhs, rhs => reduceEquality op lhs rhs
  else binary op lhs rhs

/-- The operator that joins an equality of two operands with another comparison
of the same operands under `land` or `lor`. -/
def mergedOperator? (op other : BinOp) : Option BinOp :=
  match op, other with
  | .land, .ge => some .gt
  | .land, .uge => some .ugt
  | .lor, .lt => some .le
  | .lor, .ult => some .ule
  | _, _ => none

/-- One comparison for `a == b || a < b`, for `a != b && a >= b` and for their
unsigned forms, in either order. -/
def mergeComparisons? (op : BinOp) (lhs rhs : Expr) : Option Expr :=
  match lhs, rhs with
  | binary opA a b, binary opB a' b' =>
    let equality := if op = .land then BinOp.ne else BinOp.eq
    if a = a' ∧ b = b' then
      if opA = equality then (mergedOperator? op opB).map fun merged => binary merged a b
      else if opB = equality then (mergedOperator? op opA).map fun merged => binary merged a b
      else none
    else none
  | _, _ => none

/-- A logical conjunction or disjunction of reduced operands. -/
def reduceLogical (op : BinOp) (lhs rhs : Expr) : Expr :=
  match rhs with
  | const value =>
    if op = .land ∧ value = 0 then const 0
    else if op ≠ .land ∧ value ≠ 0 then const 1
    else if lhs.isBoolean then lhs
    else binary op lhs rhs
  | rhs => (mergeComparisons? op lhs rhs).getD (binary op lhs rhs)

/-- A binary operator on reduced operands, of which only the right one may be a
constant if the operator can be turned around. -/
def reduceOrdered (op : BinOp) (lhs rhs : Expr) : Expr :=
  match op with
  | .add | .sub => (Linear.ofExpr (binary op lhs rhs)).toExpr
  | .mul =>
    if rhs.isConst then (Linear.ofExpr (binary op lhs rhs)).toExpr else binary op lhs rhs
  | .and => reduceAnd lhs rhs
  | .or => if rhs = const 0 then lhs else if lhs = rhs then lhs else binary op lhs rhs
  | .xor => if rhs = const 0 then lhs else if lhs = rhs then const 0 else binary op lhs rhs
  | .shl | .shr | .sar => if rhs = const 0 then lhs else binary op lhs rhs
  | .land | .lor => reduceLogical op lhs rhs
  | .div | .mod => binary op lhs rhs
  | _ => reduceComparison op lhs rhs

/-- A binary operator on reduced operands. -/
def reduceBinary (op : BinOp) (lhs rhs : Expr) : Expr :=
  match lhs, rhs with
  | const a, const b =>
    match op.fold? a b with
    | some value => const value
    | none => reduceOrdered op (const a) (const b)
  | const a, rhs =>
    if op.isCommutative then reduceOrdered op rhs (const a)
    else if op.isComparison then reduceOrdered op.swapped rhs (const a)
    else reduceOrdered op (const a) rhs
  | lhs, rhs => reduceOrdered op lhs rhs

def reduce : Expr → Expr
  | const value => const value
  | sym symbol => sym symbol
  | mem ptr size => mem ptr.reduce size
  | port p size => port p.reduce size
  | unary op arg => reduceUnary op arg.reduce
  | binary op lhs rhs => reduceBinary op lhs.reduce rhs.reduce

end Expr

end Uncompile
