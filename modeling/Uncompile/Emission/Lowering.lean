import Uncompile.Dataflow.Inputs
import Uncompile.Emission.BlockState

/-!
# Lowering a block

The instructions of a block are turned into statements one by one. `Lowering`
is what has come out so far, with the pending assignments of the block and the
successors that no branch has taken yet.
-/

namespace Uncompile

/-- What emission of a function has produced so far. -/
structure Emission where
  declarations : DeclTable
  diagnostics : List Diagnostic := []
  body : List Stmt := []
  /-- The addresses that a goto names. -/
  gotoTargets : List Address := []
  /-- Where in the body the statements of each block start. -/
  blockStarts : List (Address × Nat) := []

/-- What emission looks at. -/
structure EmissionContext where
  scope : FrameScope
  config : Config

/-- The label of a block: its given one, or one made from its address. -/
def EmissionContext.labelFor (context : EmissionContext) (address : Address) : String :=
  context.scope.program.nameOf address context.config.labelPrefix

/-- What lowering a block looks at. -/
structure BlockContext extends EmissionContext where
  block : Address
  /-- What has to be in its variable at the end of the block. -/
  required : List Symbol

structure Lowering where
  emission : Emission
  state : BlockState
  successors : List Address

namespace Lowering

def emit (l : Lowering) (stmt : Stmt) : Lowering :=
  { l with emission := { l.emission with body := l.emission.body ++ [stmt] } }

def emitAll (l : Lowering) (stmts : List Stmt) : Lowering :=
  { l with emission := { l.emission with body := l.emission.body ++ stmts } }

def report (l : Lowering) (diagnostic : Diagnostic) : Lowering :=
  { l with emission :=
      { l.emission with diagnostics := l.emission.diagnostics ++ [diagnostic] } }

def mapDeclarations (l : Lowering) (change : DeclTable → DeclTable) : Lowering :=
  { l with emission := { l.emission with declarations := change l.emission.declarations } }

def declare (l : Lowering) (name : String) (ret : CType) (params : List CType) : Lowering :=
  l.mapDeclarations fun table => table.declareFunction name ret params

def markGoto (l : Lowering) (address : Address) : Lowering :=
  { l with emission :=
      { l.emission with gotoTargets := OrderedSet.add l.emission.gotoTargets address } }

/-- A value in terms of the variables as they stand, as a C expression. -/
def eval (l : Lowering) (e : Expr) : CExpr := .ofExpr (l.state.eval e)

end Lowering

namespace BlockContext

/-- No pending value is forced out. -/
def never (_ : Symbol) (_ : Expr) : Bool := false

/-- Pending values that read memory are forced out. -/
def ifReadsMemory (_ : Symbol) (value : Expr) : Bool := value.readsMemory

def commit (context : BlockContext) (required : List Symbol) (force : Symbol → Expr → Bool)
    (l : Lowering) : Lowering :=
  let result := l.state.commit required force
  let committed := { l with state := result.state }.emitAll result.stmts
  if result.cyclic then committed.report (.cyclicCommit context.block) else committed

/-- Makes room for values that come from outside: what reads the given symbols
is written out, and they are no longer pending. -/
def clobber (context : BlockContext) (symbols : List Symbol) (l : Lowering) : Lowering :=
  let forced (symbol : Symbol) (value : Expr) : Bool :=
    symbol ∉ symbols && symbols.any fun clobbered => value.references clobbered
  let committed := context.commit [] forced l
  { committed with state := symbols.foldl BlockState.discard committed.state }

/-- Takes over what an instruction does to registers that the frame manages. -/
def applyFrameUpdates (context : BlockContext) (insn : Instruction) (l : Lowering) : Lowering :=
  let updates := insn.effect.filterMap fun write =>
    match write.1 with
    | .sym symbol =>
      if context.scope.isManaged symbol then some (symbol, l.state.eval write.2) else none
    | _ => none
  { l with state := updates.foldl (fun state entry => state.update entry.1 entry.2 true) l.state }

/-- An instruction without C form: everything is written out, the instruction
becomes inline assembly, and what it writes is in its variables afterwards. -/
def unmodeled (context : BlockContext) (insn : Instruction) (l : Lowering) : Lowering :=
  let committed := context.commit [] (fun _ _ => true) l
  let moved := context.applyFrameUpdates insn (committed.emit (.asm insn.text))
  let written := (insn.effect.filterMap fun write => write.1.asSymbol?).filter fun symbol =>
    !context.scope.isManaged symbol
  { moved with state := written.foldl BlockState.discard moved.state }

/-- A conditional goto. The target is no longer a successor to be reached by
other means. Without a fixed target the instruction is kept as it is. -/
def branch (context : BlockContext) (insn : Instruction) (cond : CExpr) (l : Lowering) :
    Lowering :=
  match context.scope.target? insn with
  | some (.address target) =>
    { l with successors := l.successors.filter (· ≠ target) }.markGoto target
      |>.emit (.ifGoto cond (context.labelFor target))
  | _ => l.emit (.asm insn.text)

/-- Takes over an effect. All values are those before the instruction; memory is
written at once, and registers become pending. -/
def plain (context : BlockContext) (insn : Instruction) (l : Lowering) : Lowering :=
  let ready := if insn.writesMemory then context.commit context.required ifReadsMemory l else l
  let stores := insn.effect.filterMap fun write =>
    match write.1 with
    | .sym _ => none
    | location => some (Stmt.assign (ready.eval location.toExpr) (ready.eval write.2))
  let updates := insn.effect.filterMap fun write =>
    write.1.asSymbol?.map fun symbol => (symbol, ready.state.eval write.2)
  let take (state : BlockState) (entry : Symbol × Expr) : BlockState :=
    state.update entry.1 entry.2 (context.scope.isManaged entry.1)
  { ready.emitAll stores with state := updates.foldl take ready.state }

/-- The width in bytes in which a parameter is passed. -/
def paramWidth (type : CType) (pointerSize : Nat) : Nat :=
  match type with
  | .int bits => max (bits / 8) 1
  | .ushort => 2
  | _ => pointerSize

/-- Whether an indirect call or jump reads a symbol to find its target. -/
def targetReads (insn : Instruction) (symbol : Symbol) : Bool :=
  (insn.kind = .call || insn.kind = .jmp) &&
    match insn.operands with
    | [] => false
    | operand :: _ => !operand.isImm && operand.value.references symbol

/-- Whether an effect reads a symbol in a value or an address. -/
def effectReferences (effect : Effect) (symbol : Symbol) : Bool :=
  effect.any fun write =>
    write.2.references symbol || write.1.address?.any fun address => address.references symbol

/-- Whether instructions read a symbol before they overwrite it. -/
def readsFirst (symbol : Symbol) (returnRegister : Reg) : List Instruction → Bool
  | [] => false
  | insn :: rest =>
    if effectReferences insn.effect symbol || targetReads insn symbol ||
        (insn.kind = .ret && symbol = .reg returnRegister) then true
    else if insn.kind = .call ||
        insn.effect.any fun write => write.1.asSymbol? = some symbol then false
    else readsFirst symbol returnRegister rest

/-- The arguments that a fastcall function takes in registers. -/
def registerArgs (context : BlockContext) (prototype : FunctionType) (l : Lowering) :
    List CExpr :=
  if prototype.fastcall then
    let (first, second) := context.config.fastcallRegisters
    ([first, second].zip prototype.params).map fun slot =>
      let width := paramWidth slot.2.type context.config.pointerSize
      l.eval (.binary .and (.reg slot.1) (.const (sizeMask width)))
  else []

/-- The arguments in consecutive stack slots from a known distance to the entry
stack pointer on; they are unknown if the distance is. -/
def slotArgs (pointerSize : Nat) (l : Lowering) : Option Int → List ParamType → List CExpr
  | _, [] => []
  | none, _ :: rest => .ofExpr (.sym .unknown) :: slotArgs pointerSize l none rest
  | some offset, param :: rest =>
    l.eval (.mem (.frame offset) (paramWidth param.type pointerSize)) ::
      slotArgs pointerSize l (some (offset + pointerSize)) rest

/-- The arguments of a call. The stack pointer before it is resolved, or else
taken from the values at hand. -/
def callArgs (context : BlockContext) (insn : Instruction) (prototype : FunctionType)
    (l : Lowering) : List CExpr :=
  let start := (context.scope.stackOffsetAt? insn.address).or
    ((l.state.live.get? (.reg .esp)).bind Expr.frameOffset?)
  let onStack := if prototype.fastcall then prototype.params.drop 2 else prototype.params
  context.registerArgs prototype l ++ slotArgs context.config.pointerSize l start onStack

/-- Emits a call whose callee and arguments are fixed. Its result is kept if the
end of the block or a later instruction needs it. -/
def finishCall (context : BlockContext) (insn : Instruction) (rest : List Instruction)
    (ret : CType) (call : CExpr) (l : Lowering) : Lowering :=
  let cleared := context.clobber (context.config.scratchRegisters.map Symbol.reg) l
  let result : Symbol := .reg context.config.returnRegister
  let used := result ∈ context.required ||
    readsFirst result context.config.returnRegister rest
  let called :=
    if !ret.isVoid && used then cleared.emit (.assign (.ofSymbol result) call)
    else cleared.emit (.expr call)
  context.applyFrameUpdates insn called

def call (context : BlockContext) (insn : Instruction) (rest : List Instruction) (l : Lowering) :
    Lowering :=
  let clobbered := context.config.scratchRegisters.map Symbol.reg
  let surviving := context.required.filter fun symbol => symbol ∉ clobbered
  let ready := context.commit surviving ifReadsMemory l
  match context.scope.target? insn with
  | some (.address target) =>
    let name := context.scope.program.nameOf target context.config.externPrefix
    let declared := ready.mapDeclarations fun table =>
      table.declareOnce { name, kind := .function .unknown }
    match declared.emission.declarations.function? name with
    | some prototype =>
      context.finishCall insn rest prototype.ret
        (.call name (context.callArgs insn prototype declared)) declared
    | none => context.finishCall insn rest .word (.call name []) declared
  | some (.indirect value) =>
    context.finishCall insn rest .word (.callPointer (ready.eval value) .word []) ready
  | none => context.unmodeled insn ready

/-- A jump through a register or memory is a tail call. -/
def jump (context : BlockContext) (insn : Instruction) (l : Lowering) : Lowering :=
  match insn.operands with
  | .imm _ :: _ => l
  | .special _ :: _ | [] => context.unmodeled insn l
  | operand :: _ =>
    let committed := context.commit context.required never l
    { committed with successors := [] }.emit
      (.ret (some (.callPointer (committed.eval operand.value) .void [])))

def setSpecial (insn : Instruction) (reg : SpecialReg) (l : Lowering) : Lowering :=
  let name := "intrinsic_set_" ++ reg.text
  let source := ((insn.operands[1]?).map Operand.value).getD (.sym .unknown)
  let value := l.state.eval source
  let narrowed :=
    if reg.isSegment then (Expr.binary .and value (.const 0xffff)).reduce else value
  (l.declare name .void [.int reg.bits]).emit (.expr (.call name [.ofExpr narrowed]))

def getSpecial (context : BlockContext) (insn : Instruction) (reg : SpecialReg) (l : Lowering) :
    Lowering :=
  let name := "intrinsic_get_" ++ reg.text
  let declared := l.declare name (.int reg.bits) []
  match insn.operands.head?.bind Operand.asReg? with
  | some target =>
    (context.clobber [.reg target] declared).emit
      (.assign (.ofSymbol (.reg target)) (.call name []))
  | none => context.unmodeled insn declared

/-- Declares the structure of a descriptor and that of the table of them, unless
the descriptor is declared. -/
def declareTable (kind : String) (fields : List (String × Nat)) (table : DeclTable) : DeclTable :=
  let descriptor := kind ++ "_descriptor"
  if table.contains descriptor then table
  else
    (table.insert
      { name := descriptor,
        kind := .struct (fields.map fun field => (field.1, .int field.2)) none }).insert
      { name := kind ++ "_table",
        kind := .struct [("size", .int 16), ("table", .pointer (.struct descriptor))] (some 2) }

def segmentFields : List (String × Nat) :=
  [("limit", 16), ("base0_16", 16), ("base16_24", 8), ("flags1", 8), ("flags2_limit_16_20", 8),
    ("base24_32", 8)]

def interruptFields : List (String × Nat) :=
  [("offset0_16", 16), ("segment", 16), ("flags", 16), ("offset16_32", 16)]

def loadTable (context : BlockContext) (insn : Instruction) (table : DescriptorTable)
    (l : Lowering) : Lowering :=
  let (name, kind, fields) := match table with
    | .segments => ("intrinsic_lgdt", "segment", segmentFields)
    | .interrupts => ("intrinsic_lidt", "interrupt", interruptFields)
  let declared := (l.mapDeclarations (declareTable kind fields)).declare name .void
    [.pointer (.struct (kind ++ "_table"))]
  match insn.operands with
  | .mem m :: _ => declared.emit (.expr (.call name [declared.eval m.address]))
  | _ => context.unmodeled insn declared

def systemLoad (context : BlockContext) (insn : Instruction) (load : SystemLoad) (l : Lowering) :
    Lowering :=
  let name := match load with
    | .task => "intrinsic_ltr"
    | .localTable => "intrinsic_lldt"
  let declared := l.declare name .void [.word]
  match insn.operands with
  | operand :: _ => declared.emit (.expr (.call name [declared.eval operand.value]))
  | [] => context.unmodeled insn declared

def portOut (context : BlockContext) (insn : Instruction) (l : Lowering) : Lowering :=
  match insn.operands with
  | [port, source] =>
    let bits := source.bitSize
    let name := "intrinsic_out" ++ decimalText bits
    (l.declare name .void [.ushort, .int bits]).emit
      (.expr (.call name [l.eval port.value, l.eval source.value]))
  | _ => context.unmodeled insn l

def portIn (context : BlockContext) (insn : Instruction) (l : Lowering) : Lowering :=
  match insn.operands with
  | [target, port] =>
    let bits := target.bitSize
    let name := "intrinsic_in" ++ decimalText bits
    let declared := l.declare name (.int bits) [.ushort]
    let accumulator : Symbol := .reg .eax
    (context.clobber [accumulator] declared).emit
      (.assign (.ofSymbol accumulator) (.call name [l.eval port.value]))
  | _ => context.unmodeled insn l

/-- Decrements the counter and branches while it is not zero and the condition,
if there is one, holds. -/
def loop (context : BlockContext) (insn : Instruction) (cc : Option Condition) (l : Lowering) :
    Lowering :=
  let counter : Symbol := .reg .ecx
  let committed := context.commit context.required (fun symbol _ => symbol = counter) l
  let decremented := CExpr.preDec (.ofSymbol counter)
  let cond := match cc with
    | some cc => .binary .land decremented (committed.eval cc.toExpr)
    | none => decremented
  context.branch insn cond committed

/-- Lowers one instruction; `rest` are the instructions after it. -/
def lower (context : BlockContext) (insn : Instruction) (rest : List Instruction) (l : Lowering) :
    Lowering :=
  match insn.kind with
  | .jcc cc =>
    let committed := context.commit context.required never l
    context.branch insn (committed.eval cc.toExpr) committed
  | .loop cc => context.loop insn cc l
  | .ret =>
    let committed := context.commit context.required never l
    committed.emit (.ret (some (committed.eval (.reg context.config.returnRegister))))
  | .call => context.call insn rest l
  | .jmp => context.jump insn l
  | .movToSpecial reg => setSpecial insn reg l
  | .movFromSpecial reg => context.getSpecial insn reg l
  | .plain => context.plain insn l
  | .descriptorTable table => context.loadTable insn table l
  | .systemLoad load => context.systemLoad insn load l
  | .portOut => context.portOut insn l
  | .portIn => context.portIn insn l
  | .passthrough => l.emit (.asm insn.text)
  | .unmodeled => context.unmodeled insn l

/-- Lowers the instructions of a block in order. -/
def lowerAll (context : BlockContext) : List Instruction → Lowering → Lowering
  | [], l => l
  | insn :: rest, l => context.lowerAll rest (context.lower insn rest l)

end BlockContext

end Uncompile
