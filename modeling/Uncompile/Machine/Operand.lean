import Uncompile.Effect

/-!
# Operands

What an instruction is applied to. Reading an operand gives an expression;
writing one gives an entry of an effect. A narrow view of a register reads the
low bits and leaves the others alone when it is written.
-/

namespace Uncompile

/-- The address `base + index * scale + disp` of `size` bytes of memory. -/
structure MemOperand where
  base : Option Reg := none
  index : Option Reg := none
  scale : Nat := 1
  disp : Int := 0
  size : Nat := 4

namespace MemOperand

def address (m : MemOperand) : Expr :=
  let withIndex := match m.index with
    | some index => Expr.add (.binary .mul (.reg index) (.const m.scale)) (.const m.disp)
    | none => .const m.disp
  let withBase := match m.base with
    | some base => Expr.add (.reg base) withIndex
    | none => withIndex
  withBase.reduce

def sizeText (m : MemOperand) : String :=
  if m.size = 1 then "byte ptr "
  else if m.size = 2 then "word ptr "
  else if m.size = 4 then "dword ptr "
  else ""

/-- The registers of the address, joined by plus signs. -/
def registerText (m : MemOperand) : String :=
  match m.base, m.index with
  | none, none => ""
  | some base, none => base.name
  | none, some index => index.name ++ "*" ++ decimalText m.scale
  | some base, some index => base.name ++ "+" ++ index.name ++ "*" ++ decimalText m.scale

/-- The displacement, left out if it is zero and there are registers. -/
def dispText (m : MemOperand) : String :=
  let bare := m.base.isNone && m.index.isNone
  if m.disp = 0 ∧ bare = false then ""
  else if m.disp < 0 then "-" ++ hexDigits m.disp.natAbs ++ "h"
  else (if bare then "" else "+") ++ hexDigits m.disp.natAbs ++ "h"

def text (m : MemOperand) : String :=
  m.sizeText ++ "[" ++ m.registerText ++ m.dispText ++ "]"

end MemOperand

/-- The mask of the low `size` bytes; anything but one or two bytes is a whole
word. -/
def sizeMask (size : Nat) : Int :=
  if size = 1 then 0xff else if size = 2 then 0xffff else mask32

inductive Operand where
  | reg (reg : Reg) (size : Nat)
  | special (reg : SpecialReg)
  | imm (value : Int)
  | mem (m : MemOperand)

namespace Operand

def ofReg (r : Reg) : Operand := reg r 4

/-- The word at a constant distance from a register. -/
def atOffset (base : Reg) (disp : Int) : Operand :=
  mem { base := some base, disp := disp }

/-- Memory at a constant address. -/
def absolute (address : Int) (size : Nat) : Operand :=
  mem { disp := address, size := size }

/-- Width in bytes. -/
def size : Operand → Nat
  | reg _ size => size
  | special r => r.bits / 8
  | imm _ => 4
  | mem m => m.size

/-- Width in bits, counted in one byte. -/
def bitSize (operand : Operand) : Nat := operand.size * 8 % 256

def asReg? : Operand → Option Reg
  | reg r _ => some r
  | _ => none

def isImm : Operand → Bool
  | imm _ => true
  | _ => false

/-- The value an operand is read as. -/
def value : Operand → Expr
  | reg r size =>
    if 4 ≤ size then .reg r else .binary .and (.reg r) (.const (sizeMask size))
  | special r => .sym (.special r)
  | imm v => .const v
  | mem m => .mem m.address m.size

/-- The write of a value to an operand; an immediate cannot be written. -/
def assign? (operand : Operand) (v : Expr) : Option (Location × Expr) :=
  match operand with
  | reg r size =>
    if 4 ≤ size then some (.reg r, v)
    else
      let kept := Expr.binary .and (.reg r) (.const (mask32 - sizeMask size))
      let low := Expr.binary .and v (.const (sizeMask size))
      some (.reg r, .binary .or kept low)
  | special r => some (.sym (.special r), v)
  | imm _ => none
  | mem m => some (.mem m.address m.size, v)

/-- The write of a value to an operand as an effect. -/
def assign (operand : Operand) (v : Expr) : Effect :=
  (operand.assign? v).toList

/-- Immediates are written in hexadecimal with a final `h`. -/
def immText (v : Int) : String :=
  (if v < 0 then "-" else "") ++ hexDigits v.natAbs ++ "h"

def text : Operand → String
  | reg r size => r.sizedName size
  | special r => r.text
  | imm v => immText v
  | mem m => m.text

end Operand

end Uncompile
