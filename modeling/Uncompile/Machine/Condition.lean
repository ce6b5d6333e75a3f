import Uncompile.Expr.Basic

/-!
# Branch conditions

The condition codes of the conditional jumps, the suffixes that name them and
the formulas over the flags that they test.
-/

namespace Uncompile

inductive Condition where
  | o | no | b | ae | z | nz | be | a | s | ns | p | np | l | ge | le | g | ecxz | cxz
  deriving DecidableEq

namespace Condition

/-- The condition named by the part of a jump's mnemonic after the `j`. -/
def ofSuffix? : String → Option Condition
  | "o" => some o
  | "no" => some no
  | "b" | "c" | "nae" => some b
  | "ae" | "nb" | "nc" => some ae
  | "z" | "e" => some z
  | "nz" | "ne" => some nz
  | "be" | "na" => some be
  | "a" | "nbe" => some a
  | "s" => some s
  | "ns" => some ns
  | "p" | "pe" => some p
  | "np" | "po" => some np
  | "l" | "nge" => some l
  | "ge" | "nl" => some ge
  | "le" | "ng" => some le
  | "g" | "nle" => some g
  | "ecxz" => some ecxz
  | "cxz" => some cxz
  | _ => none

/-- Sign and overflow flag differ: the comparison found "less". -/
def less : Expr := .binary .ne (.flag .s) (.flag .o)

/-- Sign and overflow flag agree. -/
def notLess : Expr := .binary .eq (.flag .s) (.flag .o)

/-- The condition as a formula over flags, or over the counter register. -/
def toExpr : Condition → Expr
  | o => .flag .o
  | no => .unary .lnot (.flag .o)
  | b => .flag .c
  | ae => .unary .lnot (.flag .c)
  | z => .flag .z
  | nz => .unary .lnot (.flag .z)
  | be => .binary .lor (.flag .c) (.flag .z)
  | a => .binary .land (.unary .lnot (.flag .c)) (.unary .lnot (.flag .z))
  | s => .flag .s
  | ns => .unary .lnot (.flag .s)
  | p => .flag .p
  | np => .unary .lnot (.flag .p)
  | l => less
  | ge => notLess
  | le => .binary .lor (.flag .z) less
  | g => .binary .land (.unary .lnot (.flag .z)) notLess
  | ecxz => .binary .eq (.reg .ecx) (.const 0)
  | cxz => .binary .eq (.binary .and (.reg .ecx) (.const 0xffff)) (.const 0)

end Condition

end Uncompile
