import Uncompile.Program.Basic

/-!
# Building programs

Instructions are appended to the block opened last and numbered consecutively
from its address. Opening a block, or finishing, puts the previous one into the
program.
-/

namespace Uncompile

structure ProgramBuilder where
  program : Program := {}
  current : Option Block := none
  nextAddress : Address := 0

namespace ProgramBuilder

/-- Puts the open block, if any, into the program. -/
def finish (builder : ProgramBuilder) : Program :=
  match builder.current with
  | some block => builder.program.insertBlock block
  | none => builder.program

def openBlock (builder : ProgramBuilder) (address : Address) : ProgramBuilder :=
  { program := builder.finish, current := some { address }, nextAddress := address }

/-- Appends an instruction. Without an open block it is dropped, but the
numbering moves on. -/
def insn (builder : ProgramBuilder) (mnemonic : String) (operands : List Operand) :
    ProgramBuilder :=
  let insn := Instruction.ofMnemonic builder.nextAddress mnemonic operands
  { builder with
    current := builder.current.map fun block =>
      { block with instructions := block.instructions ++ [insn] },
    nextAddress := builder.nextAddress + 1 }

def successors (builder : ProgramBuilder) (next : List Address) : ProgramBuilder :=
  { builder with current := builder.current.map fun block => { block with successors := next } }

def label (builder : ProgramBuilder) (address : Address) (name : String) : ProgramBuilder :=
  { builder with program := builder.program.setLabel address name }

def function (builder : ProgramBuilder) (entry : Address) : ProgramBuilder :=
  { builder with program := builder.program.addFunction entry }

end ProgramBuilder

end Uncompile
