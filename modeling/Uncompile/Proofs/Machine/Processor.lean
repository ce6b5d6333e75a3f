import Uncompile.Proofs.Program.Conditions

/-!
# The processor

What instructions do according to the manual of the processor, said without the
lifted effects. An operation on operands of any width has a result and acts on
each status flag: it sets the flag, keeps it, or leaves it undefined. For
instructions on words this file also gives the registers and the memory that the
processor leaves.
-/

namespace Uncompile

/-! ## Status flags -/

inductive StatusFlag where
  | zero | sign | carry | overflow
  deriving DecidableEq

def StatusFlag.flag : StatusFlag → Flag
  | zero => .z
  | sign => .s
  | carry => .c
  | overflow => .o

/-- What becomes of a status flag. -/
inductive FlagAction where
  | keeps
  | sets (bit : Bool)
  | undefines
  deriving DecidableEq

/-- The values of a flag before and after; an undefined flag may have any value. -/
def FlagAction.Allows (before after : Word) : FlagAction → Prop
  | .keeps => after = before
  | .sets bit => after = BinOp.truth bit
  | .undefines => True

namespace StatusFlags

variable {w : Nat}

/-- The flags of the addition `a + b`. -/
def ofAdd (a b : BitVec w) : StatusFlags where
  carry := a.uaddOverflow b
  zero := a + b == 0
  sign := (a + b).msb
  overflow := a.saddOverflow b

def get (flags : StatusFlags) : StatusFlag → Bool
  | .zero => flags.zero
  | .sign => flags.sign
  | .carry => flags.carry
  | .overflow => flags.overflow

/-- All flags are set. -/
def setAll (flags : StatusFlags) (f : StatusFlag) : FlagAction := .sets (flags.get f)

/-- All flags are set but the carry flag, which is kept. -/
def keepCarry (flags : StatusFlags) (f : StatusFlag) : FlagAction :=
  if f = .carry then .keeps else .sets (flags.get f)

end StatusFlags

/-! ## Operations -/

/-- The result of an operation and what it does to the flags. -/
structure Outcome (w : Nat) where
  result : BitVec w
  action : StatusFlag → FlagAction

namespace Opcode

variable {w : Nat}

/-- The operations of the arithmetic unit. Those on one operand ignore the second;
a comparison and a test have the result that they set the flags by. -/
def outcome? (opcode : Opcode) (a b : BitVec w) : Option (Outcome w) :=
  match opcode with
  | .add => some ⟨a + b, (StatusFlags.ofAdd a b).setAll⟩
  | .sub | .cmp => some ⟨a - b, (StatusFlags.ofSub a b).setAll⟩
  | .and | .test => some ⟨a &&& b, (StatusFlags.ofResult (a &&& b)).setAll⟩
  | .or => some ⟨a ||| b, (StatusFlags.ofResult (a ||| b)).setAll⟩
  | .xor => some ⟨a ^^^ b, (StatusFlags.ofResult (a ^^^ b)).setAll⟩
  | .inc => some ⟨a + 1, (StatusFlags.ofAdd a 1).keepCarry⟩
  | .dec => some ⟨a - 1, (StatusFlags.ofSub a 1).keepCarry⟩
  | .neg => some ⟨-a, (StatusFlags.ofSub 0 a).setAll⟩
  | .not => some ⟨~~~a, fun _ => .keeps⟩
  | _ => none

/-- The flags of a shift. A shift by zero keeps them. The carry flag is the last bit
shifted out, if there is one; the overflow flag is defined for a shift by one. -/
def shiftAction (count : Nat) (result : BitVec w) (lastOut : Option Bool) (overflow : Bool)
    (f : StatusFlag) : FlagAction :=
  if count = 0 then .keeps
  else match f with
    | .zero => .sets (result == 0)
    | .sign => .sets result.msb
    | .carry => (lastOut.map .sets).getD .undefines
    | .overflow => if count = 1 then .sets overflow else .undefines

/-- Shifts by a count that is already taken modulo 32. -/
def shifted? (opcode : Opcode) (a : BitVec w) (count : Nat) : Option (Outcome w) :=
  match opcode with
  | .shl =>
    let lastOut := if count < w then some (a.getLsbD (w - count)) else none
    some ⟨a <<< count, shiftAction count (a <<< count) lastOut ((a <<< count).msb != a.msb)⟩
  | .shr =>
    let lastOut := if count < w then some (a.getLsbD (count - 1)) else none
    some ⟨a >>> count, shiftAction count (a >>> count) lastOut a.msb⟩
  | .sar =>
    let result := a.sshiftRight count
    some ⟨result, shiftAction count result (some ((a.sshiftRight (count - 1)).getLsbD 0)) false⟩
  | _ => none

/-- A product says by carry and overflow whether its high half is needed, and leaves
the other flags undefined. -/
def productAction (high : Bool) : StatusFlag → FlagAction
  | .carry | .overflow => .sets high
  | .zero | .sign => .undefines

end Opcode

/-! ## Registers and memory -/

/-- A world whose ports read zero. -/
def World.silent : World := { port := fun _ _ => 0, byZero := fun _ w => w }

namespace MachineState

/-- A state with one register set, the other symbols zero and all bytes alike. -/
def only (r : Reg) (value : Word) (byte : BitVec 8) : MachineState where
  symbol symbol := if symbol = .reg r then value else 0
  memory _ := byte

def reg (machine : MachineState) (r : Reg) : Word := machine.symbol (.reg r)

def setSymbol (machine : MachineState) (symbol : Symbol) (value : Word) : MachineState :=
  { machine with symbol := Function.update machine.symbol symbol value }

def setReg (machine : MachineState) (r : Reg) (value : Word) : MachineState :=
  machine.setSymbol (.reg r) value

def storeWord (machine : MachineState) (address value : Word) : MachineState :=
  { machine with memory := machine.memory.store address value 4 }

/-- Writes a word to an operand; an immediate cannot be written. -/
def put (machine : MachineState) (target : Operand) (value : Word) : MachineState :=
  match target with
  | .reg r _ => machine.setReg r value
  | .special r => machine.setSymbol (.special r) value
  | .imm _ => machine
  | .mem m => machine.storeWord (m.effectiveAddress machine) value

/-- The stack pointer is moved before the word is stored. -/
def push (machine : MachineState) (value : Word) : MachineState :=
  (machine.setReg .esp (machine.reg .esp - 4)).storeWord (machine.reg .esp - 4) value

/-- The stack pointer is moved before the register is written. -/
def pop (machine : MachineState) (r : Reg) : MachineState :=
  (machine.setReg .esp (machine.reg .esp + 4)).setReg r
    (machine.memory.load (machine.reg .esp) 4)

/-- The states have the same memory and differ in flags only. -/
structure SameData (machine other : MachineState) : Prop where
  symbol : ∀ symbol, (∀ f, symbol ≠ .flag f) → machine.symbol symbol = other.symbol symbol
  memory : machine.memory = other.memory

/-- A state after a value was written to the low `size` bytes of a register. -/
structure ViewWritten (machine after : MachineState) (r : Reg) (size : Nat) (value : Word) :
    Prop where
  low : (after.reg r).setWidth (8 * size) = value.setWidth (8 * size)
  rest : after.reg r >>> (8 * size) = machine.reg r >>> (8 * size)
  symbol : ∀ symbol, symbol ≠ .reg r → after.symbol symbol = machine.symbol symbol
  memory : after.memory = machine.memory

end MachineState

namespace Operand

/-- The control and debug registers. -/
def isSystem : Operand → Bool
  | special (.control _) | special (.debug _) => true
  | _ => false

/-- Operands of a word: those of the arithmetic unit, and the control and debug
registers. -/
def isWide (operand : Operand) : Bool := operand.isSystem || operand.isWord

/-- Bytes and half words of a register or of memory. -/
def isNarrow : Operand → Bool
  | reg _ size => size = 1 || size = 2
  | mem m => m.size = 1 || m.size = 2
  | _ => false

/-- The bits of an operand as wide as it is. -/
def bits (machine : MachineState) (operand : Operand) : BitVec (8 * operand.size) :=
  (operand.word machine).setWidth (8 * operand.size)

/-- The low five bits of an operand, which a shift counts by. -/
def shiftCount (machine : MachineState) (operand : Operand) : Nat :=
  (operand.word machine).toNat % 32

end Operand

/-! ## Instructions on words -/

namespace Opcode

/-- The product of two signed words, cut to a word. -/
def signedProduct (a b : Word) : Word := BitVec.ofInt 32 (a.toInt * b.toInt)

/-- The registers and the memory after an instruction on words. The flags are those
from before it: `actions?` says what becomes of them. -/
def next? (opcode : Opcode) (machine : MachineState) (operands : List Operand) :
    Option MachineState :=
  match opcode, operands with
  | .cmp, [_, _] | .test, [_, _] => some machine
  | .add, [target, source] | .sub, [target, source] | .and, [target, source]
  | .or, [target, source] | .xor, [target, source] =>
    (opcode.outcome? (target.word machine) (source.word machine)).map fun outcome =>
      machine.put target outcome.result
  | .inc, [target] | .dec, [target] | .neg, [target] | .not, [target] =>
    (opcode.outcome? (target.word machine) 0).map fun outcome =>
      machine.put target outcome.result
  | .shl, [target, count] | .shr, [target, count] | .sar, [target, count] =>
    (opcode.shifted? (target.word machine) (count.shiftCount machine)).map fun outcome =>
      machine.put target outcome.result
  | .mov, [target, source] => some (machine.put target (source.word machine))
  | .movzx, [target, source] => some (machine.put target ((source.bits machine).setWidth 32))
  | .movsx, [target, source] => some (machine.put target ((source.bits machine).signExtend 32))
  | .lea, [target, .mem m] => some (machine.put target (m.effectiveAddress machine))
  | .imul, [target, source] =>
    some (machine.put target (signedProduct (target.word machine) (source.word machine)))
  | .imul, [target, source, factor] =>
    some (machine.put target (signedProduct (source.word machine) (factor.word machine)))
  -- the high half of the accumulator as 64 bits
  | .cdq, [] => some (machine.setReg .edx (((machine.reg .eax).signExtend 64).extractLsb' 32 32))
  | .push, [source] => some (machine.push (source.word machine))
  | .pop, [.reg r _] => some (machine.pop r)
  | .leave, [] => some ((machine.setReg .esp (machine.reg .ebp)).pop .ebp)
  | _, _ => none

/-- What an instruction of the catalogue does to the flags. Which flags it touches does
not depend on the width of its operands; the bits are those for words. Moving a control or
debug register leaves the flags undefined. -/
def actions? (opcode : Opcode) (machine : MachineState) (operands : List Operand) :
    Option (StatusFlag → FlagAction) :=
  match opcode, operands with
  | .add, [a, b] | .sub, [a, b] | .cmp, [a, b] | .and, [a, b] | .test, [a, b] | .or, [a, b]
  | .xor, [a, b] => (opcode.outcome? (a.word machine) (b.word machine)).map Outcome.action
  | .inc, [a] | .dec, [a] | .neg, [a] | .not, [a] =>
    (opcode.outcome? (a.word machine) 0).map Outcome.action
  | .shl, [a, count] | .shr, [a, count] | .sar, [a, count] =>
    (opcode.shifted? (a.word machine) (count.shiftCount machine)).map Outcome.action
  | .mul, [a] => some (productAction ((machine.reg .eax).umulOverflow (a.word machine)))
  | .imul, [a] => some (productAction ((machine.reg .eax).smulOverflow (a.word machine)))
  | .imul, [a, b] | .imul, [_, a, b] =>
    some (productAction ((a.word machine).smulOverflow (b.word machine)))
  | .div, [_] | .idiv, [_] => some fun _ => .undefines
  | .mov, operands =>
    some fun _ => if operands.any Operand.isSystem then .undefines else .keeps
  | .nop, _ | .movzx, _ | .movsx, _ | .lea, _ | .push, _ | .pop, _ | .cdq, _
  | .leave, _ => some fun _ => .keeps
  | _, _ => none

end Opcode

end Uncompile
