import Uncompile.Register

/-!
# Configuration

The parameters of the calling convention and the names given to what has none.
The defaults are those of the usual 32-bit conventions.
-/

namespace Uncompile

structure Config where
  /-- Bytes of a pointer, and so of a stack slot. -/
  pointerSize : Nat := 4
  /-- Registers that a call destroys; they may also carry input. -/
  scratchRegisters : List Reg := [.eax, .ecx, .edx]
  /-- The two registers that carry fastcall arguments. -/
  fastcallRegisters : Reg × Reg := (.ecx, .edx)
  returnRegister : Reg := .eax
  /-- The register that may serve as frame pointer. -/
  frameRegister : Reg := .ebp
  labelPrefix : String := "loc_"
  externPrefix : String := "sub_"
  /-- Number of leading stack slots in which gaps are filled in. -/
  maxStackArgs : Nat := 32

inductive ConfigError where
  | pointerSize (size : Nat)
  | sameFastcallRegisters
  | stackPointerAsFrame

def ConfigError.message : ConfigError → String
  | pointerSize size =>
    "invalid configuration: pointer_size must be 2 or 4, got " ++ decimalText size
  | sameFastcallRegisters =>
    "invalid configuration: fastcall_registers must name two distinct registers"
  | stackPointerAsFrame => "invalid configuration: frame_register cannot be the stack pointer"

/-- The first rule that a configuration breaks. -/
def Config.violation? (config : Config) : Option ConfigError :=
  if config.pointerSize ≠ 2 ∧ config.pointerSize ≠ 4 then some (.pointerSize config.pointerSize)
  else if config.fastcallRegisters.1 = config.fastcallRegisters.2 then
    some .sameFastcallRegisters
  else if config.frameRegister = .esp then some .stackPointerAsFrame
  else none

end Uncompile
