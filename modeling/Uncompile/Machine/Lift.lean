import Uncompile.Machine.Opcode

/-!
# Lifting

The effect of each known instruction on registers, flags, memory and ports. All
values refer to the state before the instruction. An instruction without an
entry here has no known effect.
-/

namespace Uncompile

namespace Lift

def offset (base : Expr) (delta : Int) : Expr := (Expr.add base (.const delta)).reduce

/-- The zero and sign flag of a result. -/
def resultFlags (result : Expr) : Effect :=
  [(.flag .z, .binary .eq result (.const 0)), (.flag .s, .binary .lt result (.const 0))]

/-- The flags of a subtraction. Overflow is the sign being other than the
signed comparison of the operands. -/
def compareFlags (a b : Expr) : Effect :=
  let difference := Expr.binary .sub a b
  let sign := Expr.binary .lt difference (.const 0)
  [(.flag .z, .binary .eq difference (.const 0)),
    (.flag .s, sign),
    (.flag .c, .binary .ult a b),
    (.flag .o, .binary .ne sign (.binary .lt a b))]

/-- The flags of a bitwise operation: carry and overflow are cleared. -/
def logicFlags (result : Expr) : Effect :=
  resultFlags result ++ [(.flag .c, .const 0), (.flag .o, .const 0)]

/-- A source narrower than a word, widened to one. Sign extension is
`((x & mask) ^ sign) - sign`. -/
def extend (source : Operand) (signed : Bool) : Expr :=
  if 4 ≤ source.size then source.value
  else
    let mask := sizeMask source.size
    let low := Expr.binary .and source.value (.const mask)
    if signed then
      let sign := Expr.const ((mask + 1) / 2)
      .binary .sub (.binary .xor low sign) sign
    else low

def push (source : Operand) : Effect :=
  [(.reg .esp, offset (.reg .esp) (-4)), (.mem (offset (.reg .esp) (-4)) 4, source.value)]

/-- Popping into the stack pointer only loads it. -/
def pop (target : Operand) : Effect :=
  if target.asReg? = some .esp then [(.reg .esp, .mem (.reg .esp) 4)]
  else target.assign (.mem (.reg .esp) 4) ++ [(.reg .esp, offset (.reg .esp) 4)]

def add (target source : Operand) : Effect :=
  let result := Expr.binary .add target.value source.value
  target.assign result ++ resultFlags result ++
    [(.flag .c, .binary .ult result target.value), (.flag .o, .sym .unknown)]

def sub (target source : Operand) : Effect :=
  target.assign (.binary .sub target.value source.value) ++
    compareFlags target.value source.value

def bitwise (op : BinOp) (target source : Operand) : Effect :=
  let result := Expr.binary op target.value source.value
  target.assign result ++ logicFlags result

/-- Increment and decrement leave the carry flag alone. -/
def step (delta : Int) (target : Operand) : Effect :=
  let result := Expr.add target.value (.const delta)
  target.assign result ++ resultFlags result ++ [(.flag .o, .sym .unknown)]

def neg (target : Operand) : Effect :=
  let result := Expr.unary .neg target.value
  target.assign result ++ resultFlags result ++
    [(.flag .c, .binary .ne target.value (.const 0))]

def shift (op : BinOp) (target count : Operand) : Effect :=
  let result := Expr.binary op target.value count.value
  target.assign result ++ resultFlags result

/-- The low half of the product; the high half is not followed. -/
def mulAccumulator (source : Operand) : Effect :=
  [(.reg .eax, .binary .mul (.reg .eax) source.value), (.reg .edx, .sym .unknown)]

def divAccumulator (source : Operand) : Effect :=
  [(.reg .eax, .binary .div (.reg .eax) source.value),
    (.reg .edx, .binary .mod (.reg .eax) source.value)]

/-- A return drops the return address and the bytes named by its operand. -/
def ret (operands : List Operand) : Effect :=
  let extra : Int := match operands with
    | [.imm n] => n
    | _ => 0
  [(.reg .esp, offset (.reg .esp) (4 + extra))]

end Lift

/-- The effect of an opcode on its operands, if it is known. -/
def Opcode.effect? (opcode : Opcode) (operands : List Operand) : Option Effect :=
  match opcode, operands with
  | .nop, _ | .call, _ | .jmp, _ | .sti, _ | .cli, _ | .jcc _, _ => some []
  | .push, [source] => some (Lift.push source)
  | .pop, [target] => some (Lift.pop target)
  | .mov, [target, source] => some (target.assign source.value)
  | .movzx, [target, source] => some (target.assign (Lift.extend source false))
  | .movsx, [target, source] => some (target.assign (Lift.extend source true))
  | .lea, [target, .mem m] => some (target.assign m.address)
  | .add, [target, source] => some (Lift.add target source)
  | .sub, [target, source] => some (Lift.sub target source)
  | .and, [target, source] => some (Lift.bitwise .and target source)
  | .or, [target, source] => some (Lift.bitwise .or target source)
  | .xor, [target, source] => some (Lift.bitwise .xor target source)
  | .cmp, [a, b] => some (Lift.compareFlags a.value b.value)
  | .test, [a, b] => some (Lift.logicFlags (.binary .and a.value b.value))
  | .inc, [target] => some (Lift.step 1 target)
  | .dec, [target] => some (Lift.step (-1) target)
  | .neg, [target] => some (Lift.neg target)
  | .not, [target] => some (target.assign (.unary .not target.value))
  | .shl, [target, count] => some (Lift.shift .shl target count)
  | .shr, [target, count] => some (Lift.shift .shr target count)
  | .sar, [target, count] => some (Lift.shift .sar target count)
  | .mul, [source] => some (Lift.mulAccumulator source)
  | .imul, [source] => some (Lift.mulAccumulator source)
  | .imul, [target, source] => some (target.assign (.binary .mul target.value source.value))
  | .imul, [target, source, factor] =>
    some (target.assign (.binary .mul source.value factor.value))
  | .div, [source] => some (Lift.divAccumulator source)
  | .idiv, [source] => some (Lift.divAccumulator source)
  | .cdq, [] => some [(.reg .edx, .binary .sar (.reg .eax) (.const 31))]
  | .leave, [] =>
    some [(.reg .esp, Lift.offset (.reg .ebp) 4), (.reg .ebp, .mem (.reg .ebp) 4)]
  | .ret, operands => some (Lift.ret operands)
  | .loop _, _ => some [(.reg .ecx, Lift.offset (.reg .ecx) (-1))]
  | .portIn, [target, port] => some (target.assign (.port port.value target.size))
  | .portOut, [port, source] => some [(.port port.value source.size, source.value)]
  | .lgdt, [.mem m] => some [(.sym (.special .gdtr), .mem m.address 6)]
  | .lidt, [.mem m] => some [(.sym (.special .idtr), .mem m.address 6)]
  | .ltr, [source] => some [(.sym (.special .tr), source.value)]
  | .lldt, [source] => some [(.sym (.special .ldtr), source.value)]
  | _, _ => none

end Uncompile
