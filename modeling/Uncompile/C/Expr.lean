import Uncompile.C.Type
import Uncompile.Expr.Basic

/-!
# C expressions

Expressions of the recovered program. A symbolic expression becomes one by
`CExpr.ofExpr`: memory at a fixed distance from the entry stack pointer is a
stack variable, and such an address is the address of one.
-/

namespace Uncompile

inductive CExpr where
  | var (name : String)
  | const (value : Int)
  /-- The `size` bytes at an offset from the stack pointer at function entry. -/
  | stackVar (offset : Int) (size : Nat)
  | addrOf (inner : CExpr)
  | deref (ptr : CExpr) (size : Nat)
  | unary (op : UnOp) (arg : CExpr)
  | binary (op : BinOp) (lhs rhs : CExpr)
  | preDec (inner : CExpr)
  | call (name : String) (args : List CExpr)
  /-- A call through a function pointer that returns `ret`. -/
  | callPointer (target : CExpr) (ret : CType) (args : List CExpr)

namespace CExpr

def ofSymbol (symbol : Symbol) : CExpr := var symbol.text

/-- The intrinsic that reads a port of a width in bytes. -/
def portRead (size : Nat) : String := "intrinsic_in" ++ decimalText (size * 8)

def ofExpr : Expr → CExpr
  | .const value => const value
  | .sym .framePtr => addrOf (stackVar 0 4)
  | .sym symbol => ofSymbol symbol
  | .mem ptr size =>
    match ptr.frameOffset? with
    | some offset => stackVar offset size
    | none => deref (ofExpr ptr) size
  | .port p size => call (portRead size) [ofExpr p]
  | .unary op arg => unary op (ofExpr arg)
  | .binary op lhs rhs =>
    match (Expr.binary op lhs rhs).frameOffset? with
    | some offset => addrOf (stackVar offset 4)
    | none => binary op (ofExpr lhs) (ofExpr rhs)

mutual

/-- An expression and all its parts, each before its own parts. -/
def subterms (e : CExpr) : List CExpr :=
  match e with
  | var name => [var name]
  | const value => [const value]
  | stackVar offset size => [stackVar offset size]
  | addrOf inner => addrOf inner :: inner.subterms
  | deref ptr size => deref ptr size :: ptr.subterms
  | unary op arg => unary op arg :: arg.subterms
  | binary op lhs rhs => binary op lhs rhs :: (lhs.subterms ++ rhs.subterms)
  | preDec inner => preDec inner :: inner.subterms
  | call name args => call name args :: subtermsList args
  | callPointer target ret args =>
    callPointer target ret args :: (target.subterms ++ subtermsList args)

def subtermsList : List CExpr → List CExpr
  | [] => []
  | e :: rest => e.subterms ++ subtermsList rest

end

def asStackVar? : CExpr → Option (Int × Nat)
  | stackVar offset size => some (offset, size)
  | _ => none

end CExpr

end Uncompile
