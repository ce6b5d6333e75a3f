import Uncompile.Program.Basic
import Std.Data.HashSet

/-!
# Backward resolution

To find the value of a symbol before an instruction, its expression is carried
backwards through the effects of the instructions before it, and through every
predecessor of the block, until a block's binding leaves no register in it, the
snapshot block is reached or there is no predecessor. All values found on the
way are candidates. A search that exceeds the program's budget finds none.
-/

namespace Uncompile

/-- An expression after the instructions, in terms of the state before them. -/
def rewind (instructions : List Instruction) (e : Expr) : Expr :=
  instructions.reverse.foldl (fun e insn => (e.bind insn.registerEffect).reduce) e

/-- A place of the search: an expression in terms of the state at a block's
entry. -/
abbrev Visit := Address × Expr

namespace Program

/-- Adds a candidate that has not been found before. -/
def addCandidate (found : List Expr) (e : Expr) : List Expr :=
  if e ∈ found then found else found ++ [e]

/-- What a block's binding makes of an expression at its entry, and whether
that settles it. -/
def settle (program : Program) (visit : Visit) : Expr × Bool :=
  match program.bindings.get? visit.1 with
  | some binding =>
    let bound := (visit.2.bind binding).reduce
    (bound, !bound.hasRegisters)
  | none => (visit.2, false)

/-- The places before a block entry: each predecessor, with the expression
carried through its whole block. -/
def visitsBefore (program : Program) (address : Address) (e : Expr) : List Visit :=
  (program.predecessors address).filterMap fun predecessor =>
    (program.block? predecessor).map fun block => (predecessor, rewind block.instructions e)

/-- The search from a stack of places. Each visit costs one unit of budget,
also one that was made before. -/
def search (program : Program) (snapshot : Address) :
    Nat → List Visit → Std.HashSet Visit → List Expr → List Expr
  | _, [], _, found => found
  | 0, _ :: _, _, _ => []
  | budget + 1, visit :: rest, seen, found =>
    if seen.contains visit then search program snapshot budget rest seen found
    else
      let (e, settled) := program.settle visit
      if settled || visit.1 = snapshot || (program.predecessors visit.1).isEmpty then
        search program snapshot budget rest (seen.insert visit) (addCandidate found e)
      else
        search program snapshot budget ((program.visitsBefore visit.1 e).reverse ++ rest)
          (seen.insert visit) found

/-- The candidates for the value of a symbol just before the instruction at
`site`, in the order found. -/
def backtrace (program : Program) (symbol : Symbol) (site snapshot : Address) : List Expr :=
  match program.locate? site with
  | none => []
  | some (block, index) =>
    let start := rewind (block.instructions.take index) (.sym symbol)
    program.search snapshot program.budget [(block.address, start)] ∅ []

end Program

end Uncompile
