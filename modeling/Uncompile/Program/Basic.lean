import Uncompile.Machine.Instruction
import Uncompile.Worklist

/-!
# Programs

A program is a set of basic blocks with labels and known function entries. The
binding table holds what is known of symbols at the entry of a block; analyses
of one function write to it and take their entries back.
-/

namespace Uncompile

structure Block where
  address : Address
  instructions : List Instruction := []
  /-- Addresses of the blocks that control can continue at. -/
  successors : List Address := []

namespace Block

def last? (block : Block) : Option Instruction := block.instructions.getLast?

/-- Whether the last instruction is a return. -/
def isReturn (block : Block) : Bool :=
  block.last?.any fun insn => insn.kind = .ret

/-- Whether the last instruction is a return or an unconditional jump. -/
def endsWithTransfer (block : Block) : Bool :=
  block.last?.any fun insn => insn.kind = .ret || insn.kind = .jmp

def contains (block : Block) (address : Address) : Bool :=
  block.instructions.any fun insn => insn.address = address

end Block

abbrev BindingTable := SortedMap Address Binding

/-- The number of block visits a backward search may take. -/
def defaultBudget : Nat := 4096

/-- The name of the function at an address: its label, or the address in
hexadecimal after `fallback`. -/
def functionName (label? : Option String) (address : Address) (fallback : String) : String :=
  label?.getD (fallback ++ hexDigits address)

/-- Each block stands under its own address. -/
def Block.Indexed (blocks : SortedMap Address Block) : Prop :=
  ∀ entry ∈ blocks.entries, entry.2.address = entry.1

theorem Block.indexed_empty : Indexed .empty := List.forall_mem_nil _

/-- Blocks are listed in address order. -/
structure Program where
  blocks : SortedMap Address Block := .empty
  indexed : Block.Indexed blocks := by exact Block.indexed_empty
  labels : SortedMap Address String := .empty
  functions : List Address := []
  bindings : BindingTable := .empty
  budget : Nat := defaultBudget

namespace Program

def insertBlock (program : Program) (block : Block) : Program :=
  { program with
    blocks := program.blocks.insert block.address block
    indexed := fun entry hentry => by
      rcases SortedMap.mem_insertEntry hentry with rfl | hmem
      · rfl
      · exact program.indexed entry hmem }

def setLabel (program : Program) (address : Address) (name : String) : Program :=
  { program with labels := program.labels.insert address name }

/-- Registers a function entry, once. -/
def addFunction (program : Program) (entry : Address) : Program :=
  if entry ∈ program.functions then program
  else { program with functions := program.functions ++ [entry] }

def setBinding (program : Program) (address : Address) (binding : Binding) : Program :=
  { program with bindings := program.bindings.insert address binding }

def eraseBinding (program : Program) (address : Address) : Program :=
  { program with bindings := program.bindings.erase address }

def block? (program : Program) (address : Address) : Option Block :=
  program.blocks.get? address

theorem address_of_block? {program : Program} {address : Address} {block : Block}
    (hblock : program.block? address = some block) : block.address = address :=
  program.indexed _ (SortedMap.mem_of_get? hblock)

def labelAt? (program : Program) (address : Address) : Option String :=
  program.labels.get? address

def nameOf (program : Program) (address : Address) (fallback : String) : String :=
  functionName (program.labelAt? address) address fallback

/-- The last block that starts at or before an address. -/
def blockBefore? (program : Program) (address : Address) : Option Block :=
  (program.blocks.entries.filter fun entry => entry.1 ≤ address).getLast?.map Prod.snd

/-- The block and position of the instruction at an address. Only the last
block that starts at or before the address is searched. -/
def locate? (program : Program) (address : Address) : Option (Block × Nat) := do
  let block ← program.blockBefore? address
  let index ← block.instructions.findIdx? fun insn => insn.address = address
  return (block, index)

def instruction? (program : Program) (address : Address) : Option Instruction := do
  let (block, index) ← program.locate? address
  block.instructions[index]?

/-- The blocks that name an address as successor, in address order. -/
def predecessors (program : Program) (address : Address) : List Address :=
  (program.blocks.values.filter fun block => address ∈ block.successors).map Block.address

/-- The successors of a block within the function at `entry`: existing blocks
that are not the entry of another function. -/
def functionSuccessors (program : Program) (entry address : Address) : List Address :=
  match program.block? address with
  | none => []
  | some block => block.successors.filter fun next =>
      program.blocks.contains next && (next = entry || next ∉ program.functions)

/-- The blocks of the function at an entry: the entry, then the others in
address order. There are none if the entry has no block. -/
def functionBlocks (program : Program) (entry : Address) : List Address :=
  if program.blocks.contains entry then
    let members :=
      Worklist.explore program.blocks.keys (program.functionSuccessors entry) [entry] [entry]
    entry :: program.blocks.keys.filter fun address => address ≠ entry && address ∈ members
  else []

/-- The addresses of the return instructions of a function. -/
def returnSites (program : Program) (entry : Address) : List Address :=
  let blocks := (program.functionBlocks entry).filterMap program.block?
  ((blocks.flatMap Block.instructions).filter fun insn => insn.kind = .ret).map
    Instruction.address

end Program

end Uncompile
