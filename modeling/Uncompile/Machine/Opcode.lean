import Uncompile.Machine.Condition
import Uncompile.Machine.Operand

/-!
# Opcodes

Mnemonics are read into opcodes regardless of case. An opcode says whether
control leaves the straight line, and together with the operands it says how
the instruction is turned into statements.
-/

namespace Uncompile

inductive Opcode where
  | nop | push | pop | mov | movzx | movsx | lea
  | add | sub | and | or | xor | cmp | test
  | inc | dec | neg | not | shl | shr | sar
  | mul | imul | div | idiv | cdq | leave
  | ret | call | jmp
  | jcc (cc : Condition)
  | loop (cc : Option Condition)
  | lgdt | lidt | ltr | lldt
  | portIn | portOut
  | sti | cli | hlt | iret
  | other
  deriving DecidableEq

namespace Opcode

/-- The opcode of a mnemonic in lower case, conditional jumps apart. -/
def ofName? : String → Option Opcode
  | "nop" => some nop
  | "push" => some push
  | "pop" => some pop
  | "mov" => some mov
  | "movzx" => some movzx
  | "movsx" => some movsx
  | "lea" => some lea
  | "add" => some add
  | "sub" => some sub
  | "and" => some and
  | "or" => some or
  | "xor" => some xor
  | "cmp" => some cmp
  | "test" => some test
  | "inc" => some inc
  | "dec" => some dec
  | "neg" => some neg
  | "not" => some not
  | "shl" => some shl
  | "shr" => some shr
  | "sar" => some sar
  | "mul" => some mul
  | "imul" => some imul
  | "div" => some div
  | "idiv" => some idiv
  | "cdq" => some cdq
  | "leave" => some leave
  | "ret" | "retn" => some ret
  | "call" => some call
  | "jmp" => some jmp
  | "loop" => some (loop none)
  | "loopz" | "loope" => some (loop (some .z))
  | "loopnz" | "loopne" => some (loop (some .nz))
  | "lgdt" => some lgdt
  | "lidt" => some lidt
  | "ltr" => some ltr
  | "lldt" => some lldt
  | "in" => some portIn
  | "out" => some portOut
  | "sti" => some sti
  | "cli" => some cli
  | "hlt" => some hlt
  | "iret" | "iretd" => some iret
  | _ => none

/-- The condition of a conditional jump's mnemonic. -/
def jumpCondition? (name : String) : Option Condition :=
  match name.toList with
  | 'j' :: suffix => Condition.ofSuffix? (String.ofList suffix)
  | _ => none

def ofMnemonic (mnemonic : String) : Opcode :=
  let name := mnemonic.toLower
  match ofName? name with
  | some opcode => opcode
  | none => match jumpCondition? name with
    | some cc => jcc cc
    | none => other

/-- Whether the instruction can continue anywhere but at the next one. -/
def altersControlFlow : Opcode → Bool
  | ret | jmp | hlt | iret | call | loop _ | jcc _ => true
  | _ => false

/-- Whether nothing after the instruction is reached by falling through. -/
def terminatesBlock : Opcode → Bool
  | ret | jmp | hlt | iret => true
  | _ => false

/-- The mnemonics whose effect alone says what the instruction does. -/
def catalogue : List String :=
  ["push", "pop", "mov", "add", "sub", "or", "xor", "and", "not", "mul", "div", "idiv", "imul",
    "shr", "shl", "sar", "test", "cmp", "inc", "dec", "lea", "movzx", "movsx", "neg", "cdq",
    "leave", "nop"]

end Opcode

/-- Descriptor tables with a load instruction of their own. -/
inductive DescriptorTable where
  | segments | interrupts
  deriving DecidableEq

/-- System registers that are loaded with a selector. -/
inductive SystemLoad where
  | task | localTable
  deriving DecidableEq

/-- How an instruction is turned into statements. -/
inductive Kind where
  | jcc (cc : Condition)
  | loop (cc : Option Condition)
  | ret
  | call
  | jmp
  | movToSpecial (reg : SpecialReg)
  | movFromSpecial (reg : SpecialReg)
  /-- The effect is taken over as it is. -/
  | plain
  | descriptorTable (table : DescriptorTable)
  | systemLoad (load : SystemLoad)
  | portOut
  | portIn
  /-- Kept as inline assembly, with no effect on pending values. -/
  | passthrough
  | unmodeled
  deriving DecidableEq

/-- A conditional jump counts as one only when it alters control flow without
ending its block. -/
def Opcode.kind (opcode : Opcode) (operands : List Operand) (alters terminates : Bool) : Kind :=
  match opcode with
  | .ret => .ret
  | .call => .call
  | .jmp => .jmp
  | .loop cc => .loop cc
  | .mov => match operands with
    | [.special r, _] => .movToSpecial r
    | [_, .special r] => .movFromSpecial r
    | _ => .plain
  | .lgdt => .descriptorTable .segments
  | .lidt => .descriptorTable .interrupts
  | .ltr => .systemLoad .task
  | .lldt => .systemLoad .localTable
  | .portOut => .portOut
  | .portIn => .portIn
  | .sti | .cli => .passthrough
  | .jcc cc => if alters && !terminates then .jcc cc else .unmodeled
  | .hlt | .iret | .other => .unmodeled
  | _ => .plain

end Uncompile
