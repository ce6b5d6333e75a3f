import Uncompile.Word

/-!
# Operators

The operators of symbolic expressions and their meaning on words. Comparisons
and the logical operators give `0` or `1`; division and remainder are signed
and have no value for divisor zero; shift counts are taken modulo 32.
-/

namespace Uncompile

inductive BinOp where
  | add | sub | mul | div | mod
  | and | or | xor
  | shl | shr | sar
  | eq | ne | lt | le | gt | ge
  | ult | ule | ugt | uge
  | land | lor
  deriving DecidableEq, Hashable

namespace BinOp

def isEquality : BinOp → Bool
  | eq | ne => true
  | _ => false

def isUnsigned : BinOp → Bool
  | ult | ule | ugt | uge => true
  | _ => false

def isComparison : BinOp → Bool
  | eq | ne | lt | le | gt | ge | ult | ule | ugt | uge => true
  | _ => false

def isLogical : BinOp → Bool
  | land | lor => true
  | _ => false

def isCommutative : BinOp → Bool
  | add | mul | and | or | xor | eq | ne | land | lor => true
  | _ => false

/-- The comparison that holds exactly when this one does not. -/
def negate? : BinOp → Option BinOp
  | eq => some ne
  | ne => some eq
  | lt => some ge
  | ge => some lt
  | gt => some le
  | le => some gt
  | ult => some uge
  | uge => some ult
  | ugt => some ule
  | ule => some ugt
  | _ => none

/-- The operator that compares the same two operands in the other order. -/
def swapped : BinOp → BinOp
  | lt => gt
  | gt => lt
  | le => ge
  | ge => le
  | ult => ugt
  | ugt => ult
  | ule => uge
  | uge => ule
  | op => op

/-- Whether the comparison holds of two equal operands. -/
def holdsOfEqual : BinOp → Bool
  | eq | le | ge | ule | uge => true
  | _ => false

def symbol : BinOp → String
  | add => "+"
  | sub => "-"
  | mul => "*"
  | div => "/"
  | mod => "%"
  | and => "&"
  | or => "|"
  | xor => "^"
  | shl => "<<"
  | shr | sar => ">>"
  | eq => "=="
  | ne => "!="
  | lt | ult => "<"
  | le | ule => "<="
  | gt | ugt => ">"
  | ge | uge => ">="
  | land => "&&"
  | lor => "||"

def truth (holds : Bool) : Word := if holds then 1 else 0

/-- The value of an operator on two words, if it has one. -/
def compute? (op : BinOp) (a b : Word) : Option Word :=
  match op with
  | add => some (a + b)
  | sub => some (a - b)
  | mul => some (a * b)
  | div => if b = 0 then none else some (a.sdiv b)
  | mod => if b = 0 then none else some (a.srem b)
  | and => some (a &&& b)
  | or => some (a ||| b)
  | xor => some (a ^^^ b)
  | shl => some (a <<< (b.toNat % 32))
  | shr => some (a >>> (b.toNat % 32))
  | sar => some (a.sshiftRight (b.toNat % 32))
  | eq => some (truth (a == b))
  | ne => some (truth (a != b))
  | lt => some (truth (a.slt b))
  | le => some (truth (a.sle b))
  | gt => some (truth (b.slt a))
  | ge => some (truth (b.sle a))
  | ult => some (truth (a.ult b))
  | ule => some (truth (a.ule b))
  | ugt => some (truth (b.ult a))
  | uge => some (truth (b.ule a))
  | land => some (truth (a != 0 && b != 0))
  | lor => some (truth (a != 0 || b != 0))

/-- The value of an operator on two constants. The logical operators look at
the constants themselves, all others at the words they denote. -/
def fold? (op : BinOp) (a b : Int) : Option Int :=
  match op with
  | land => some (if a ≠ 0 ∧ b ≠ 0 then 1 else 0)
  | lor => some (if a ≠ 0 ∨ b ≠ 0 then 1 else 0)
  | op => (op.compute? (toWord a) (toWord b)).map BitVec.toInt

end BinOp

inductive UnOp where
  | neg | not | lnot
  deriving DecidableEq, Hashable

namespace UnOp

def symbol : UnOp → String
  | neg => "-"
  | not => "~"
  | lnot => "!"

def apply (op : UnOp) (a : Word) : Word :=
  match op with
  | neg => -a
  | not => ~~~a
  | lnot => BinOp.truth (a == 0)

/-- The value of an operator on a constant. -/
def fold (op : UnOp) (a : Int) : Int :=
  (op.apply (toWord a)).toInt

end UnOp

end Uncompile
