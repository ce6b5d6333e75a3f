import Uncompile.Config
import Uncompile.Diagnostic
import Uncompile.Frame.Scope

/-!
# Register dependencies

For each block of a function: the registers and flags it reads before writing
them, those it writes, and where control goes. Registers that the frame manages
are left out.
-/

namespace Uncompile

structure BlockDeps where
  /-- What is read before the block writes it. -/
  reads : List Symbol := []
  /-- What the block writes; after dead writes are dropped, what is still
  needed at its end. -/
  writes : List Symbol := []
  successors : List Address := []
  /-- Whether the block ends in a return. -/
  returns : Bool := false
  /-- Whether a successor lies outside the function. -/
  escapes : Bool := false

/-- The dependencies of a function, its entry block first. -/
structure Dependencies where
  entry : Address
  blocks : List (Address × BlockDeps)

namespace Dependencies

def addresses (deps : Dependencies) : List Address := deps.blocks.map Prod.fst

def block? (deps : Dependencies) (address : Address) : Option BlockDeps :=
  (deps.blocks.find? fun entry => entry.1 = address).map Prod.snd

def reads (deps : Dependencies) (address : Address) : List Symbol :=
  ((deps.block? address).map BlockDeps.reads).getD []

def writes (deps : Dependencies) (address : Address) : List Symbol :=
  ((deps.block? address).map BlockDeps.writes).getD []

def successors (deps : Dependencies) (address : Address) : List Address :=
  ((deps.block? address).map BlockDeps.successors).getD []

/-- The blocks of the function that continue at an address: the sources of the edges of its
graph that end there, each once, in the order in which the edges are added. -/
def predecessors (deps : Dependencies) (address : Address) : List Address :=
  (deps.blocks.filter fun entry => address ∈ entry.2.successors).map Prod.fst

theorem mem_addresses_of_mem_predecessors {deps : Dependencies} {address next : Address}
    (haddress : address ∈ deps.predecessors next) : address ∈ deps.addresses := by
  obtain ⟨entry, hentry, rfl⟩ := List.mem_map.mp haddress
  exact List.mem_map.mpr ⟨entry, (List.mem_filter.mp hentry).1, rfl⟩

end Dependencies

/-- What the analysis of a function looks at. -/
structure AnalysisContext where
  scope : FrameScope
  declarations : DeclTable
  config : Config

namespace AnalysisContext

/-- Whether a symbol is a register or flag outside the frame's care. -/
def tracks (context : AnalysisContext) (symbol : Symbol) : Bool :=
  symbol.isRegister && !context.scope.isManaged symbol

/-- What an instruction reads through its effect. -/
def effectReads (insn : Instruction) : List Symbol :=
  insn.effect.flatMap fun write =>
    write.2.symbols ++ ((write.1.address?.map Expr.symbols).getD [])

/-- What an instruction reads to decide where control goes. -/
def controlReads (context : AnalysisContext) (insn : Instruction) : List Symbol :=
  match insn.kind with
  | .ret => [.reg context.config.returnRegister]
  | .jcc cc => cc.toExpr.symbols
  | .loop (some cc) => cc.toExpr.symbols
  | .call | .jmp =>
    match insn.operands with
    | [] => []
    | operand :: _ => if operand.isImm then [] else operand.value.symbols
  | _ => []

/-- Adds tracked symbols that the block has not written yet to its reads. -/
def addReads (context : AnalysisContext) (deps : BlockDeps) (symbols : List Symbol) : BlockDeps :=
  { deps with
    reads := OrderedSet.addAll deps.reads
      (symbols.filter fun symbol => context.tracks symbol && symbol ∉ deps.writes) }

/-- Adds tracked symbols to the writes of a block. -/
def addWrites (context : AnalysisContext) (deps : BlockDeps) (symbols : List Symbol) : BlockDeps :=
  { deps with writes := OrderedSet.addAll deps.writes (symbols.filter context.tracks) }

/-- The prototype of a direct call's target, if it is declared. -/
def calleeType? (context : AnalysisContext) (insn : Instruction) : Option FunctionType :=
  match context.scope.target? insn with
  | some (.address target) =>
    context.declarations.function?
      (context.scope.program.nameOf target context.config.externPrefix)
  | _ => none

/-- The registers that carry used arguments to a fastcall function. -/
def argumentRegisters (context : AnalysisContext) (insn : Instruction) : List Symbol :=
  match context.calleeType? insn with
  | some callee =>
    if callee.fastcall then
      let (first, second) := context.config.fastcallRegisters
      ([first, second].zip callee.params).filterMap fun slot =>
        if slot.2.unused then none else some (.reg slot.1)
    else []
  | none => []

/-- A call reads the arguments it passes in registers and writes the scratch
registers. -/
def addCall (context : AnalysisContext) (deps : BlockDeps) (insn : Instruction) : BlockDeps :=
  context.addWrites (context.addReads deps (context.argumentRegisters insn))
    (context.config.scratchRegisters.map Symbol.reg)

/-- The dependencies of a block after one more instruction. -/
def addInstruction (context : AnalysisContext) (deps : BlockDeps) (insn : Instruction) :
    BlockDeps :=
  let read := context.addReads deps (effectReads insn ++ context.controlReads insn)
  let written := context.addWrites read (insn.effect.filterMap fun write => write.1.asSymbol?)
  if insn.kind = .call then context.addCall written insn else written

def blockDeps (context : AnalysisContext) (members : List Address) (block : Block) : BlockDeps :=
  { block.instructions.foldl context.addInstruction {} with
    successors := block.successors,
    returns := block.isReturn,
    escapes := block.successors.any fun next => next ∉ members }

/-- The dependencies of the block at an address, if there is one. -/
def collectBlock (context : AnalysisContext) (blocks : List Address) (address : Address) :
    Except DecompileError (Address × BlockDeps) :=
  match context.scope.block? address with
  | some block => .ok (address, context.blockDeps blocks block)
  | none => .error (.missingBlock address)

/-- The dependencies of the given blocks, the first being the entry. A block
that is withheld is an error. -/
def collect (context : AnalysisContext) (blocks : List Address) :
    Except DecompileError Dependencies := do
  let collected ← (OrderedSet.addAll [] blocks).mapM (context.collectBlock blocks)
  return { entry := blocks.head?.getD 0, blocks := collected }

end AnalysisContext

end Uncompile
