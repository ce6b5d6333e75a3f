import Uncompile.Disassembler

/-!
# Stack frames

While a function is analysed, the binding table says where the stack pointer,
and the frame register if it serves as frame pointer, stand relative to the
stack pointer at function entry. `FrameScope.install` works this out block by
block and writes it to the table; `FrameScope.release` puts back what was there.
-/

namespace Uncompile

structure FrameScope where
  /-- The disassembler with the frame entries in its binding table. -/
  disassembly : Disassembler
  entry : Address
  frameRegister : Reg
  /-- What the table held at the addresses that were written, last first. -/
  saved : List (Address × Option Binding) := []
  /-- Whether the frame register has been frame-relative so far. -/
  usesFrameRegister : Bool := true
  frameRegisterResolved : Bool := false
  /-- The blocks with no known stack pointer. -/
  unresolved : List Address := []

namespace FrameScope

/-- The block at an address. Whatever address the block itself gives, it is known by the
one it is asked for. -/
def block? (scope : FrameScope) (address : Address) : Option Block :=
  (scope.disassembly.block? address).map fun block => { block with address }

/-- The blocks of a program are given under their own addresses anyway. -/
theorem block?_eq {scope : FrameScope} {disassembly : Disassembly}
    (hview : scope.disassembly.view = (disassembly : Disassembler).view) :
    scope.block? = disassembly.block? := by
  funext address
  have hblock : scope.disassembly.block? address = disassembly.block? address := by
    rw [Disassembler.block?, Disassembler.code, hview]
    rfl
  rw [block?, hblock]
  cases hfound : disassembly.block? address with
  | none => rfl
  | some block =>
    rw [Option.map_some, ← Program.address_of_block? (Disassembly.program_block? hfound)]

/-- The code as it is seen inside the scope. -/
def program (scope : FrameScope) : Disassembler := scope.disassembly

def target? (scope : FrameScope) (insn : Instruction) : Option Target :=
  scope.program.target? insn

/-- In a program, calls and jumps go where their operands say. -/
theorem target?_eq {scope : FrameScope} {disassembly : Disassembly}
    (hview : scope.disassembly.view = (disassembly : Disassembler).view) :
    scope.target? = Instruction.target? := by
  funext insn
  rw [target?, program, Disassembler.target?, Disassembler.code, hview]
  rfl

/-- Writes a table entry and remembers what it replaces. -/
def patch (scope : FrameScope) (address : Address) (binding : Binding) : FrameScope :=
  { scope with
    disassembly := scope.disassembly.setBinding address binding,
    saved := (address, scope.disassembly.bindings.get? address) :: scope.saved }

/-- The value of a register before an instruction, if there is exactly one
candidate and it is at a known distance from the entry stack pointer. -/
def resolve? (scope : FrameScope) (reg : Reg) (site : Address) : Option Expr :=
  match scope.program.resolve (.reg reg) site scope.entry with
  | [only] => if only.frameOffset?.isSome then some only else none
  | _ => none

/-- Resolves the stack pointer at the start of a block. -/
def resolveStack (scope : FrameScope) (block site : Address) (known : Binding) :
    FrameScope × Binding :=
  match scope.resolve? .esp site with
  | some value => (scope, known.insert (.reg .esp) value)
  | none => ({ scope with unresolved := scope.unresolved ++ [block] }, known)

/-- Resolves the frame register at the start of a block. The first failure
makes it a general register for the whole function. -/
def resolveFrame (scope : FrameScope) (site : Address) (known : Binding) :
    FrameScope × Binding :=
  if scope.usesFrameRegister then
    match scope.resolve? scope.frameRegister site with
    | some value =>
      ({ scope with frameRegisterResolved := true },
        known.insert (.reg scope.frameRegister) value)
    | none => ({ scope with usesFrameRegister := false }, known)
  else (scope, known)

/-- Enters what is known at the start of a block. Blocks that the table already
describes and blocks without instructions are left alone. While the block is
resolved its entry is empty, so that a path back to it ends there. -/
def installBlock (scope : FrameScope) (block : Address) : FrameScope :=
  if block = scope.entry ∨ scope.disassembly.bindings.contains block then scope
  else match (scope.block? block).bind fun b => b.instructions.head? with
    | none => scope
    | some first =>
      let opened := scope.patch block .empty
      let (stacked, withStack) := opened.resolveStack block first.address .empty
      let (framed, known) := stacked.resolveFrame first.address withStack
      { framed with disassembly := framed.disassembly.setBinding block known }

def install (disassembly : Disassembler) (entry : Address) (blocks : List Address)
    (frameRegister : Reg) : FrameScope :=
  let seed : Binding := SortedMap.empty.insert (.reg .esp) (.sym .framePtr)
  let opened := FrameScope.patch { disassembly, entry, frameRegister } entry seed
  blocks.foldl installBlock opened

/-- Puts one remembered table entry back. -/
def restoreEntry (disassembly : Disassembler) (entry : Address × Option Binding) :
    Disassembler :=
  match entry.2 with
  | some binding => disassembly.setBinding entry.1 binding
  | none => disassembly.eraseBinding entry.1

/-- The disassembler with the table entries that the scope replaced. -/
def release (scope : FrameScope) : Disassembler :=
  scope.saved.foldl restoreEntry scope.disassembly

/-- Whether a symbol is followed through the frame instead of as a variable. -/
def isManaged (scope : FrameScope) (symbol : Symbol) : Bool :=
  match symbol with
  | .reg r =>
    r = .esp ||
      (r = scope.frameRegister && scope.usesFrameRegister && scope.frameRegisterResolved)
  | _ => false

/-- The frame-relative values of managed registers at the start of a block. -/
def blockFrame (scope : FrameScope) (block : Address) : Binding :=
  match scope.disassembly.bindings.get? block with
  | some binding =>
    binding.filter fun symbol value => scope.isManaged symbol && value.frameOffset?.isSome
  | none => .empty

/-- The distance of the stack pointer from the entry's just before an
instruction. -/
def stackOffsetAt? (scope : FrameScope) (site : Address) : Option Int :=
  (scope.resolve? .esp site).bind Expr.frameOffset?

end FrameScope

end Uncompile
