import Uncompile.Operator
import Uncompile.OrderedSet
import Uncompile.Symbol

/-!
# Symbolic expressions

Values are written as expressions over the state before an instruction, a block
or a function. This module has the expressions, what they mention, and
substitution of values for symbols.
-/

namespace Uncompile

inductive Expr where
  | const (value : Int)
  | sym (symbol : Symbol)
  /-- The `size` bytes of memory at an address. -/
  | mem (ptr : Expr) (size : Nat)
  /-- The `size` bytes read from an input port. -/
  | port (port : Expr) (size : Nat)
  | unary (op : UnOp) (arg : Expr)
  | binary (op : BinOp) (lhs rhs : Expr)
  deriving DecidableEq, Hashable

/-- Values for symbols. -/
abbrev Binding := SortedMap Symbol Expr

namespace Expr

def reg (r : Reg) : Expr := sym (.reg r)

def flag (f : Flag) : Expr := sym (.flag f)

def add (lhs rhs : Expr) : Expr := binary .add lhs rhs

/-- The address `offset` bytes from the stack pointer at function entry. -/
def frame (offset : Int) : Expr :=
  if offset = 0 then sym .framePtr else add (sym .framePtr) (const offset)

def asConst? : Expr → Option Int
  | const value => some value
  | _ => none

def asSymbol? : Expr → Option Symbol
  | sym symbol => some symbol
  | _ => none

def isConst : Expr → Bool
  | const _ => true
  | _ => false

/-- Replaces every bound symbol by its value. -/
def bind (binding : Binding) : Expr → Expr
  | const value => const value
  | sym symbol => (binding.get? symbol).getD (sym symbol)
  | mem ptr size => mem (ptr.bind binding) size
  | port p size => port (p.bind binding) size
  | unary op arg => unary op (arg.bind binding)
  | binary op lhs rhs => binary op (lhs.bind binding) (rhs.bind binding)

/-- The symbols of an expression, once per occurrence, from left to right. -/
def symbols : Expr → List Symbol
  | const _ => []
  | sym symbol => [symbol]
  | mem ptr _ => ptr.symbols
  | port p _ => p.symbols
  | unary _ arg => arg.symbols
  | binary _ lhs rhs => lhs.symbols ++ rhs.symbols

/-- The symbols of an expression, each at its first occurrence. -/
def externals (e : Expr) : List Symbol := OrderedSet.addAll [] e.symbols

def references (symbol : Symbol) : Expr → Bool
  | const _ => false
  | sym other => other = symbol
  | mem ptr _ => ptr.references symbol
  | port p _ => p.references symbol
  | unary _ arg => arg.references symbol
  | binary _ lhs rhs => lhs.references symbol || rhs.references symbol

/-- Whether evaluating the expression reads memory or a port. -/
def readsMemory : Expr → Bool
  | const _ => false
  | sym _ => false
  | mem _ _ => true
  | port _ _ => true
  | unary _ arg => arg.readsMemory
  | binary _ lhs rhs => lhs.readsMemory || rhs.readsMemory

def hasRegisters (e : Expr) : Bool := e.symbols.any Symbol.isRegister

/-- The offset of an expression that is the entry stack pointer or a constant
distance from it. -/
def frameOffset? : Expr → Option Int
  | sym .framePtr => some 0
  | binary .add (sym .framePtr) (const k) => some k
  | binary .add (const k) (sym .framePtr) => some k
  | binary .sub (sym .framePtr) (const k) => some (-k)
  | _ => none

theorem frameOffset?_frame (offset : Int) : (frame offset).frameOffset? = some offset := by
  unfold frame
  split
  · rename_i hzero
    rw [hzero]
    rfl
  · rfl

/-- Whether the form of an expression shows that its value is `0` or `1`. -/
def isBoolean : Expr → Bool
  | const value => value = 0 || value = 1
  | sym (.flag _) => true
  | unary .lnot _ => true
  | binary op _ _ => op.isComparison || op.isLogical
  | _ => false

/-- Constants from -10 to 9 are written in decimal, all others in hexadecimal. -/
def constText (value : Int) : String :=
  if -10 ≤ value ∧ value < 10 then decimalText value
  else if value < 0 then "-0x" ++ hexDigits value.natAbs
  else "0x" ++ hexDigits value.natAbs

def text : Expr → String
  | const value => constText value
  | sym symbol => symbol.text
  | mem ptr size => "mem" ++ decimalText (size * 8) ++ "[" ++ ptr.text ++ "]"
  | port p size => "port" ++ decimalText (size * 8) ++ "[" ++ p.text ++ "]"
  | unary op arg => op.symbol ++ "(" ++ arg.text ++ ")"
  | binary op lhs rhs => "(" ++ lhs.text ++ " " ++ op.symbol ++ " " ++ rhs.text ++ ")"

end Expr

end Uncompile
