import Uncompile.Dataflow.Liveness

/-!
# Register inputs

A register is an input of a function if a block can read it before anything has
written it since the entry, which is found by searching backwards from the block.
Inputs in the fastcall registers make the function a fastcall function; others are
noted.
-/

namespace Uncompile

namespace Dependencies

/-- Whether a search backwards from the blocks on a stack comes to the entry or to a block
without predecessor through blocks that do not write the symbol. -/
def comesUnwritten (deps : Dependencies) (symbol : Symbol) (visited stack : List Address) :
    Bool :=
  match stack with
  | [] => false
  | current :: rest =>
    let predecessors := deps.predecessors current
    let passing := predecessors.filter fun address => symbol ∉ deps.writes address
    if predecessors.isEmpty || deps.entry ∈ passing then true
    else
      let found := Worklist.fresh visited passing
      deps.comesUnwritten symbol (visited ++ found) (found.reverse ++ rest)
termination_by Worklist.unseen deps.addresses visited + stack.length
decreasing_by
  refine Worklist.round_lt (fun address haddress => ?_) (by simp [Nat.add_comm]) current
  exact mem_addresses_of_mem_predecessors (List.mem_filter.mp haddress).1

/-- Whether a block can be reached from the entry, or from a block without predecessor, with
a symbol unwritten. -/
def reachesUnwritten (deps : Dependencies) (symbol : Symbol) (block : Address) : Bool :=
  block = deps.entry || deps.comesUnwritten symbol [block] [block]

/-- Whether a block uses a register as input if it can be reached with it
unwritten. A return is no use of the return register. -/
def usesInput (returnRegister reg : Reg) (block : BlockDeps) : Bool :=
  .reg reg ∈ block.reads && !(block.returns && reg = returnRegister)

/-- The candidates that are inputs, in the order of the blocks that use them. -/
def inferredInputs (deps : Dependencies) (candidates : List Reg) (returnRegister : Reg) :
    List Reg :=
  OrderedSet.addAll [] (deps.blocks.flatMap fun entry =>
    candidates.filter fun reg =>
      usesInput returnRegister reg entry.2 && deps.reachesUnwritten (.reg reg) entry.1)

end Dependencies

/-- Enters register inputs into a function: as fastcall parameters, if one of
the fastcall registers is an input, and as a note. -/
def RecoveredFunction.assignInputs (f : RecoveredFunction) (config : Config) (inputs : List Reg) :
    RecoveredFunction :=
  let (first, second) := config.fastcallRegisters
  let withParams :=
    if first ∈ inputs ∨ second ∈ inputs then
      { f with
        convention := .fastcall,
        params := f.params ++ [first, second].map fun reg =>
          Param.ofRegister reg config.pointerSize (reg ∉ inputs) }
    else f
  let rest := inputs.filter fun reg => reg ≠ first && reg ≠ second
  if rest.isEmpty then withParams
  else { withParams with notes := withParams.notes ++ [.regArgs rest] }

namespace AnalysisContext

/-- The dependencies of a function without dead writes, and the function with
its register inputs. -/
def analyze (context : AnalysisContext) (blocks : List Address) (f : RecoveredFunction) :
    Except DecompileError (Dependencies × RecoveredFunction) := do
  let deps ← context.collect blocks
  let inputs := deps.inferredInputs context.config.scratchRegisters context.config.returnRegister
  return (deps.eliminateDeadWrites, f.assignInputs context.config inputs)

end AnalysisContext

end Uncompile
