import Uncompile.Machine.Lift

/-!
# Instructions

A disassembled instruction with its effect. `Instruction.ofMnemonic` fills in
the effect and the control-flow attributes that the mnemonic implies.
-/

namespace Uncompile

abbrev Address := Nat

structure Instruction where
  address : Address
  mnemonic : String
  operands : List Operand := []
  effect : Effect := []
  altersControlFlow : Bool := false
  terminatesBlock : Bool := false

/-- Where a call or jump goes. -/
inductive Target where
  | address (address : Address)
  | indirect (value : Expr)

namespace Instruction

def ofMnemonic (address : Address) (mnemonic : String) (operands : List Operand) : Instruction :=
  let opcode := Opcode.ofMnemonic mnemonic
  { address, mnemonic, operands,
    effect := (opcode.effect? operands).getD [],
    altersControlFlow := opcode.altersControlFlow,
    terminatesBlock := opcode.terminatesBlock }

def opcode (insn : Instruction) : Opcode := Opcode.ofMnemonic insn.mnemonic

def kind (insn : Instruction) : Kind :=
  insn.opcode.kind insn.operands insn.altersControlFlow insn.terminatesBlock

def registerEffect (insn : Instruction) : Binding := insn.effect.toBinding

def writesMemory (insn : Instruction) : Bool := insn.effect.writesMemory

/-- The target named by the first operand. An immediate is an address of 64
bits; a special register is no target. -/
def target? (insn : Instruction) : Option Target :=
  match insn.operands with
  | [] => none
  | .imm value :: _ => some (.address (BitVec.ofInt 64 value).toNat)
  | .special _ :: _ => none
  | operand :: _ => some (.indirect operand.value)

def text (insn : Instruction) : String :=
  match insn.operands with
  | [] => insn.mnemonic
  | operands => insn.mnemonic ++ " " ++ ", ".intercalate (operands.map Operand.text)

end Instruction

end Uncompile
