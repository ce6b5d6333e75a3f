import Uncompile.Program.Backtrace

/-!
# Disassemblers

What an analysis asks of the code is answered by a disassembler: the content of a
block, the blocks of a function, labels, values of symbols, returns, instructions and
where a call or jump goes. The answers may depend on the binding table, which analyses
write to; writing changes nothing else.

`Disassembly` answers from a program some of whose blocks are withheld: they are listed
and followed like all others, but their content cannot be asked for.
-/

namespace Uncompile

/-- The answers of a disassembler under one binding table. -/
structure CodeView where
  block? : Address → Option Block
  /-- The blocks of the function at an entry. -/
  functionBlocks : Address → List Address
  labelAt? : Address → Option String
  /-- The candidates for the value of a symbol just before an instruction, where the
  search ends at the entry of the snapshot block. -/
  resolve : Symbol → Address → Address → List Expr
  /-- The addresses of the return instructions of the function at an entry. -/
  returnSites : Address → List Address
  instruction? : Address → Option Instruction
  /-- Where a call or jump goes. -/
  target? : Instruction → Option Target := Instruction.target?

structure Disassembler where
  view : BindingTable → CodeView
  bindings : BindingTable

namespace Disassembler

/-- The answers under the present table. -/
def code (disassembler : Disassembler) : CodeView := disassembler.view disassembler.bindings

def block? (disassembler : Disassembler) : Address → Option Block := disassembler.code.block?

def functionBlocks (disassembler : Disassembler) : Address → List Address :=
  disassembler.code.functionBlocks

def labelAt? (disassembler : Disassembler) : Address → Option String :=
  disassembler.code.labelAt?

def resolve (disassembler : Disassembler) : Symbol → Address → Address → List Expr :=
  disassembler.code.resolve

def returnSites (disassembler : Disassembler) : Address → List Address :=
  disassembler.code.returnSites

def instruction? (disassembler : Disassembler) : Address → Option Instruction :=
  disassembler.code.instruction?

def target? (disassembler : Disassembler) : Instruction → Option Target :=
  disassembler.code.target?

def nameOf (disassembler : Disassembler) (address : Address) (fallback : String) : String :=
  functionName (disassembler.labelAt? address) address fallback

def setBinding (disassembler : Disassembler) (address : Address) (binding : Binding) :
    Disassembler :=
  { disassembler with bindings := disassembler.bindings.insert address binding }

def eraseBinding (disassembler : Disassembler) (address : Address) : Disassembler :=
  { disassembler with bindings := disassembler.bindings.erase address }

end Disassembler

structure Disassembly where
  program : Program
  withheld : List Address := []

namespace Disassembly

/-- The content of a block, unless it is withheld. -/
def block? (disassembly : Disassembly) (address : Address) : Option Block :=
  if address ∈ disassembly.withheld then none else disassembly.program.block? address

theorem program_block? {disassembly : Disassembly} {address : Address} {block : Block}
    (hblock : disassembly.block? address = some block) :
    disassembly.program.block? address = some block := by
  rw [Disassembly.block?] at hblock
  split at hblock
  · cases hblock
  · exact hblock

/-- The same code with another binding table. -/
def withBindings (disassembly : Disassembly) (table : BindingTable) : Disassembly :=
  { disassembly with program := { disassembly.program with bindings := table } }

def code (disassembly : Disassembly) : CodeView where
  block? := disassembly.block?
  functionBlocks := disassembly.program.functionBlocks
  labelAt? := disassembly.program.labelAt?
  resolve := disassembly.program.backtrace
  returnSites := disassembly.program.returnSites
  instruction? := disassembly.program.instruction?

def disassembler (disassembly : Disassembly) : Disassembler where
  view table := (disassembly.withBindings table).code
  bindings := disassembly.program.bindings

instance : Coe Disassembly Disassembler := ⟨disassembler⟩

end Disassembly

/-- The disassembler that shows all blocks of a program. -/
def Program.disassembler (program : Program) : Disassembler :=
  Disassembly.disassembler { program }

end Uncompile
