import Uncompile.Expr.Reduce

/-!
# Effects

The effect of an instruction is the list of its writes. Every value is written
in terms of the state before the instruction.
-/

namespace Uncompile

/-- What an instruction can write to. -/
inductive Location where
  | sym (symbol : Symbol)
  | mem (ptr : Expr) (size : Nat)
  | port (port : Expr) (size : Nat)
  deriving DecidableEq

namespace Location

def reg (r : Reg) : Location := sym (.reg r)

def flag (f : Flag) : Location := sym (.flag f)

def asSymbol? : Location → Option Symbol
  | sym symbol => some symbol
  | _ => none

/-- The address or port number of a location outside the processor. -/
def address? : Location → Option Expr
  | sym _ => none
  | mem ptr _ => some ptr
  | port p _ => some p

/-- The expression that reads the location. -/
def toExpr : Location → Expr
  | sym symbol => .sym symbol
  | mem ptr size => .mem ptr size
  | port p size => .port p size

end Location

abbrev Effect := List (Location × Expr)

namespace Effect

/-- The writes to symbols; of two writes to one symbol the later counts. -/
def toBinding (effect : Effect) : Binding :=
  SortedMap.ofList (effect.filterMap fun write => write.1.asSymbol?.map fun symbol =>
    (symbol, write.2))

/-- Whether an effect writes to memory or to a port. -/
def writesMemory (effect : Effect) : Bool :=
  effect.any fun write => write.1.asSymbol?.isNone

end Effect

end Uncompile
