import Uncompile.Expr.Basic

/-!
# Linear forms

Sums, differences, negations and constant multiples are normalised through a
linear form: a list of terms with coefficients, in order of first appearance,
and a constant. Coefficients and the constant count modulo `2 ^ 32`; they are
wrapped when the form is written back as an expression.
-/

namespace Uncompile

structure Linear where
  terms : List (Expr × Int) := []
  constant : Int := 0

namespace Linear

/-- Adds `scale` to the coefficient of a term. -/
def addTo (term : Expr) (scale : Int) : List (Expr × Int) → List (Expr × Int)
  | [] => [(term, scale)]
  | (other, coefficient) :: rest =>
    if other = term then (other, coefficient + scale) :: rest
    else (other, coefficient) :: addTo term scale rest

def addTerm (form : Linear) (term : Expr) (scale : Int) : Linear :=
  { form with terms := addTo term scale form.terms }

/-- Adds `scale` times an expression to a form. -/
def collect (form : Linear) (scale : Int) : Expr → Linear
  | .const value => { form with constant := form.constant + value * scale }
  | .binary .add lhs rhs => (form.collect scale lhs).collect scale rhs
  | .binary .sub lhs rhs => (form.collect scale lhs).collect (-scale) rhs
  | .unary .neg arg => form.collect (-scale) arg
  | .binary .mul lhs (.const k) => form.collect (scale * k) lhs
  | .binary .mul (.const k) rhs => form.collect (scale * k) rhs
  | term => form.addTerm term scale

def ofExpr (e : Expr) : Linear := collect {} 1 e

/-- A term with its coefficient, as the first summand. -/
def firstTerm (term : Expr) (coefficient : Int) : Expr :=
  if coefficient = 1 then term
  else if coefficient = -1 then .unary .neg term
  else .binary .mul term (.const coefficient)

/-- A term with its coefficient, added to what precedes it. -/
def nextTerm (previous term : Expr) (coefficient : Int) : Expr :=
  if coefficient = 1 then .binary .add previous term
  else if coefficient = -1 then .binary .sub previous term
  else .binary .add previous (.binary .mul term (.const coefficient))

/-- Appends the terms whose coefficient is not a multiple of `2 ^ 32`. -/
def joinTerms (previous : Option Expr) : List (Expr × Int) → Option Expr
  | [] => previous
  | (term, coefficient) :: rest =>
    if wrap32 coefficient = 0 then joinTerms previous rest
    else match previous with
      | none => joinTerms (some (firstTerm term (wrap32 coefficient))) rest
      | some sum => joinTerms (some (nextTerm sum term (wrap32 coefficient))) rest

/-- The expression of a form: its terms in order, then its constant. -/
def toExpr (form : Linear) : Expr :=
  match joinTerms none form.terms with
  | none => .const (wrap32 form.constant)
  | some sum =>
    if wrap32 form.constant = 0 then sum
    else .binary .add sum (.const (wrap32 form.constant))

end Linear

end Uncompile
