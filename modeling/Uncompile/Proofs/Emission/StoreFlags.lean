import Uncompile.Proofs.Emission.Simulation

/-!
# Flags of instructions that store

The values of an instruction are computed before its store but stay formulas,
and a formula that reads memory is read again after the store. So the flags of
an instruction like `dec [m]` are those of the machine only where their formulas
come out the same in both memories.
-/

namespace Uncompile

/-- What a symbol currently stands for in a C state. -/
def BlockState.currentWord (state : BlockState) (world : World) (c : CState) (symbol : Symbol) :
    Word :=
  ((c.valuation world).bind state.live).symbol symbol

namespace BlockContext

variable {context : BlockContext} {l : Lowering} {world : CWorld} {c : CState}
  {machine : MachineState} {insn : Instruction}

end BlockContext

/-! ### A cell that holds one -/

namespace Cell

open CWorld (silent)

def cell : Operand := .absolute 0x2000 4

def mask : Instruction := .ofMnemonic 0 "and" [cell, .imm 1]

def context : BlockContext :=
  { scope := { disassembly := Program.disassembler {}, entry := 0, frameRegister := .ebp },
    config := {}, block := 0, required := [] }

def machine : MachineState :=
  { symbol := fun _ => 0, memory := fun address => if address = 0x2000 then 1 else 0 }

def start : Lowering :=
  { emission := { declarations := {} }, state := { live := context.scope.blockFrame 0 },
    successors := [] }

end Cell

end Uncompile
