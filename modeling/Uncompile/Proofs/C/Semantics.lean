import Uncompile.C.Stmt
import Uncompile.Proofs.Machine.State

/-!
# The meaning of C statements

C variables hold words, and stack variables are memory at a fixed distance from
the address of the first one. Evaluation threads the state through, since a
decrement changes it. What an unknown function or inline assembly does is not
defined, so evaluation is partial; on the expressions that come from symbolic
ones it is total, changes nothing and gives their value.
-/

namespace Uncompile

structure CState where
  var : String → Word
  memory : Memory
  /-- The address of the stack variable at offset zero. -/
  frame : Word

/-- The world of a C program: the calls that only read something have known
results, among them reading a port. -/
structure CWorld extends World where
  reading : String → List Word → Option Word
  reading_port : ∀ (size : Nat) (p : Word), reading (CExpr.portRead size) [p] = some (port p size)

/-- The world in which everything that is read from outside is zero. -/
def CWorld.silent : CWorld where
  port _ _ := 0
  byZero _ _ := 0
  reading _ _ := some 0
  reading_port _ _ := rfl

namespace CState

def setVar (c : CState) (name : String) (value : Word) : CState :=
  { c with var := Function.update c.var name value }

def stackAddress (c : CState) (offset : Int) : Word := c.frame + toWord offset

def store (c : CState) (address value : Word) (size : Nat) : CState :=
  { c with memory := c.memory.store address value size }

/-- The value of a symbol: the frame pointer is an address, all other symbols are
variables. -/
def symbol (c : CState) : Symbol → Word
  | .framePtr => c.frame
  | s => c.var s.text

def valuation (world : World) (c : CState) : Valuation :=
  { symbol := c.symbol
    mem := c.memory.load
    port := world.port
    byZero := world.byZero }

@[simp]
theorem symbol_valuation (world : World) (c : CState) : (c.valuation world).symbol = c.symbol := rfl

end CState

namespace CExpr

mutual

/-- The value of an expression and the state after it. The logical operators
evaluate their right operand only if the left one leaves the result open. -/
def eval? (world : CWorld) : CExpr → CState → Option (Word × CState)
  | var name, c => some (c.var name, c)
  | const value, c => some (toWord value, c)
  | stackVar offset size, c => some (c.memory.load (c.stackAddress offset) size, c)
  | addrOf (stackVar offset _), c => some (c.stackAddress offset, c)
  | addrOf _, _ => none
  | deref ptr size, c => do
    let (address, c) ← ptr.eval? world c
    return (c.memory.load address size, c)
  | unary op arg, c => do
    let (value, c) ← arg.eval? world c
    return (op.apply value, c)
  | binary op lhs rhs, c => do
    let (left, c) ← lhs.eval? world c
    if op = .land ∧ left = 0 then return (0, c)
    if op = .lor ∧ left ≠ 0 then return (1, c)
    let (right, c) ← rhs.eval? world c
    return (op.value world.byZero left right, c)
  | preDec (var name), c => some (c.var name - 1, c.setVar name (c.var name - 1))
  | preDec _, _ => none
  | call name args, c => do
    let (values, c) ← evalArgs? world args c
    let value ← world.reading name values
    return (value, c)
  | callPointer _ _ _, _ => none

def evalArgs? (world : CWorld) : List CExpr → CState → Option (List Word × CState)
  | [], c => some ([], c)
  | arg :: rest, c => do
    let (value, c) ← arg.eval? world c
    let (values, c) ← evalArgs? world rest c
    return (value :: values, c)

end

/-- Writes a value to the place an expression names. -/
def assign? (world : CWorld) (place : CExpr) (value : Word) (c : CState) : Option CState :=
  match place with
  | var name => some (c.setVar name value)
  | stackVar offset size => some (c.store (c.stackAddress offset) value size)
  | deref ptr size => do
    let (address, c) ← ptr.eval? world c
    return c.store address value size
  | _ => none

end CExpr

/-! ## Expressions that come from symbolic ones -/

/-- The forms of an address at a known distance from the frame pointer. -/
theorem Expr.frameOffset?_eq_some {e : Expr} {offset : Int}
    (hoffset : e.frameOffset? = some offset) :
    (e = .sym .framePtr ∧ offset = 0) ∨ e = .binary .add (.sym .framePtr) (.const offset) ∨
      e = .binary .add (.const offset) (.sym .framePtr) ∨
      ∃ k, e = .binary .sub (.sym .framePtr) (.const k) ∧ offset = -k := by
  unfold Expr.frameOffset? at hoffset
  split at hoffset <;> simp only [Option.some.injEq, reduceCtorEq] at hoffset <;>
    subst hoffset <;> simp

/-- An expression at a known distance from the frame pointer is that address. -/
theorem Expr.eval_of_frameOffset {v : Valuation} {e : Expr} {offset : Int}
    (hoffset : e.frameOffset? = some offset) :
    e.eval v = v.symbol .framePtr + toWord offset := by
  rcases Expr.frameOffset?_eq_some hoffset with ⟨rfl, rfl⟩ | rfl | rfl | ⟨k, rfl, rfl⟩
  · simp [Expr.eval]
  · rfl
  · exact BitVec.add_comm _ _
  · rw [toWord_neg, ← sub_eq_add_neg]
    rfl

namespace CExpr

variable (world : CWorld) (c : CState)

/-- The C form of a symbolic expression has its value and changes nothing. -/
theorem eval?_ofExpr (e : Expr) :
    (ofExpr e).eval? world c = some (e.eval (c.valuation world.toWorld), c) := by
  induction e with
  | const value => simp [ofExpr, eval?, Expr.eval]
  | sym symbol =>
      cases symbol <;>
        simp [ofExpr, ofSymbol, eval?, Expr.eval, CState.valuation, CState.symbol,
          CState.stackAddress]
  | mem ptr size ih =>
      simp only [ofExpr]
      split
      · rename_i offset hoffset
        simp only [eval?, Expr.eval, Expr.eval_of_frameOffset hoffset]
        rfl
      · simp [eval?, ih, Expr.eval, CState.valuation]
  | port p size ih =>
      simp [ofExpr, eval?, evalArgs?, ih, Expr.eval, CState.valuation, world.reading_port]
  | unary op arg ih => simp [ofExpr, eval?, ih, Expr.eval]
  | binary op lhs rhs ihl ihr =>
      simp only [ofExpr]
      split
      · rename_i offset hoffset
        rw [Expr.eval_of_frameOffset hoffset]
        simp [eval?, CState.stackAddress, CState.valuation, CState.symbol]
      · simp only [eval?, ihl, ihr, Expr.eval, Option.bind_eq_bind, Option.bind_some]
        -- short circuits give the value that both operands would give
        split
        · rename_i hand
          simp [hand.1, hand.2, BinOp.value, BinOp.compute?]
        · split
          · rename_i hor
            simp only [hor.1, BinOp.value, BinOp.compute?, bne_iff_ne.mpr hor.2, Bool.true_or]
            rfl
          · rfl

/-- A memory access stands for the place it reads. -/
theorem assign?_ofExpr_mem (ptr : Expr) (size : Nat) (value : Word) :
    (ofExpr (.mem ptr size)).assign? world value c =
      some (c.store (ptr.eval (c.valuation world.toWorld)) value size) := by
  simp only [ofExpr]
  split
  · rename_i offset hoffset
    rw [Expr.eval_of_frameOffset hoffset]
    rfl
  · simp [assign?, eval?_ofExpr]

end CExpr

/-- How control leaves a statement. -/
inductive Exit where
  | next
  | goto (label : String)
  | ret (value : Option Word)
  deriving DecidableEq

namespace Stmt

def exec? (world : CWorld) : Stmt → CState → Option (CState × Exit)
  | label _, c => some (c, .next)
  | assign lhs rhs, c => do
    let (value, c) ← rhs.eval? world c
    let c ← lhs.assign? world value c
    return (c, .next)
  | ifThen cond body, c => do
    let (value, c) ← cond.eval? world c
    if value = 0 then return (c, .next) else body.exec? world c
  | goto name, c => some (c, .goto name)
  | ret none, c => some (c, .ret none)
  | ret (some e), c => do
    let (value, c) ← e.eval? world c
    return (c, .ret (some value))
  | expr e, c => do
    let (_, c) ← e.eval? world c
    return (c, .next)
  | asm _, _ => none

/-- Executes statements in order until one of them transfers control. -/
def run? (world : CWorld) : List Stmt → CState → Option (CState × Exit)
  | [], c => some (c, .next)
  | stmt :: rest, c =>
    match stmt.exec? world c with
    | some (c, .next) => run? world rest c
    | out => out

theorem run?_append_of_next {world : CWorld} {first second : List Stmt} {c c' : CState}
    (hfirst : run? world first c = some (c', .next)) :
    run? world (first ++ second) c = run? world second c' := by
  induction first generalizing c with
  | nil =>
      simp only [run?, Option.some.injEq, Prod.mk.injEq] at hfirst
      rw [List.nil_append, hfirst.1]
  | cons stmt rest ih =>
      rw [List.cons_append, run?]
      rw [run?] at hfirst
      split at hfirst
      · exact ih hfirst
      · rename_i hother
        exact absurd hfirst (hother c')

theorem run?_singleton {world : CWorld} {stmt : Stmt} {c c' : CState} {exit : Exit}
    (hexec : stmt.exec? world c = some (c', exit)) :
    run? world [stmt] c = some (c', exit) := by
  rw [run?, hexec]
  cases exit <;> rfl

/-- Assigning a symbolic value to the variable of a symbol. -/
theorem exec?_assign_symbol (world : CWorld) (c : CState) (symbol : Symbol) (value : Expr) :
    (assign (.ofSymbol symbol) (.ofExpr value)).exec? world c =
      some (c.setVar symbol.text (value.eval (c.valuation world.toWorld)), .next) := by
  simp [exec?, CExpr.eval?_ofExpr, CExpr.ofSymbol, CExpr.assign?]

/-- Assigning a symbolic value to memory. -/
theorem exec?_assign_mem (world : CWorld) (c : CState) (ptr value : Expr) (size : Nat) :
    (assign (.ofExpr (.mem ptr size)) (.ofExpr value)).exec? world c =
      some (c.store (ptr.eval (c.valuation world.toWorld))
        (value.eval (c.valuation world.toWorld)) size, .next) := by
  simp [exec?, CExpr.eval?_ofExpr, CExpr.assign?_ofExpr_mem]

end Stmt

end Uncompile
