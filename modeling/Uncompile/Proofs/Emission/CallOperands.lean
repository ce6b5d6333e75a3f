import Uncompile.Proofs.Emission.Simulation

/-!
# Operands of calls

The arguments of a call and the target of an indirect one are turned into C
expressions first; then what would be lost in the call is written out, and only
then does the call stand. What is written out may be a variable that an operand
mentions. So the operands have the machine's values exactly if they do not depend
on which value these variables hold. Slots on the stack never do, but they have to
be found.
-/

namespace Uncompile

namespace CExpr

/-- The target and the arguments of a call. -/
def operands : CExpr → List CExpr
  | call _ args => args
  | callPointer target _ args => target :: args
  | _ => []

end CExpr

/-- The parameters that are passed on the stack. -/
def FunctionType.stackParams (prototype : FunctionType) : List ParamType :=
  if prototype.fastcall then prototype.params.drop 2 else prototype.params

namespace BlockContext

/-! ## What a call passes on -/

/-- The lowering in which the operands of a call are computed. -/
def callReady (context : BlockContext) (l : Lowering) : Lowering :=
  context.commit (context.required.filter fun symbol =>
    symbol ∉ context.config.scratchRegisters.map Symbol.reg) ifReadsMemory l

/-- Whether a value is written out before a call destroys what it reads. -/
def savedFromCall (context : BlockContext) (symbol : Symbol) (value : Expr) : Bool :=
  symbol ∉ context.config.scratchRegisters.map Symbol.reg &&
    (context.config.scratchRegisters.map Symbol.reg).any fun clobbered =>
      value.references clobbered

/-- The prototype of the function that a direct call names. -/
def callee? (context : BlockContext) (insn : Instruction) (l : Lowering) : Option FunctionType :=
  match context.scope.target? insn with
  | some (.address target) =>
    let name := context.scope.program.nameOf target context.config.externPrefix
    (l.emission.declarations.declareOnce { name, kind := .function .unknown }).function? name
  | _ => none

/-- The arguments in registers, as expressions over the machine's registers. -/
def registerSources (context : BlockContext) (prototype : FunctionType) : List Expr :=
  if prototype.fastcall then
    ([context.config.fastcallRegisters.1, context.config.fastcallRegisters.2].zip
      prototype.params).map fun slot =>
        .binary .and (.reg slot.1)
          (.const (sizeMask (paramWidth slot.2.type context.config.pointerSize)))
  else []

/-- The arguments in stack slots, at their distance from the frame pointer. -/
def slotSources (pointerSize : Nat) : Option Int → List ParamType → List Expr
  | _, [] => []
  | none, _ :: rest => .sym .unknown :: slotSources pointerSize none rest
  | some offset, param :: rest =>
    .mem (.frame offset) (paramWidth param.type pointerSize) ::
      slotSources pointerSize (some (offset + pointerSize)) rest

/-- The distance of the stack pointer from the frame pointer at a call. -/
def callStart (context : BlockContext) (insn : Instruction) (l : Lowering) : Option Int :=
  (context.scope.stackOffsetAt? insn.address).or
    ((l.state.live.get? (.reg .esp)).bind Expr.frameOffset?)

/-- The target of an indirect call, or the arguments in registers, before they are
evaluated in the block state. -/
def callValues (context : BlockContext) (insn : Instruction) (l : Lowering) : List Expr :=
  match context.scope.target? insn with
  | some (.indirect value) => [value]
  | _ => ((context.callee? insn l).map context.registerSources).getD []

/-- The arguments in stack slots, before they are evaluated in the block state. -/
def callSlots (context : BlockContext) (insn : Instruction) (l : Lowering) : List Expr :=
  ((context.callee? insn l).map fun prototype => slotSources context.config.pointerSize
    (context.callStart insn l) prototype.stackParams).getD []

theorem slotArgs_eq {l : Lowering} (hunknown : l.state.live.get? .unknown = none)
    (pointerSize : Nat) (start : Option Int) (params : List ParamType) :
    slotArgs pointerSize l start params = (slotSources pointerSize start params).map l.eval := by
  have heval : l.eval (.sym .unknown) = .ofExpr (.sym .unknown) := by
    simp [Lowering.eval, BlockState.eval, Expr.bind, hunknown, Expr.reduce]
  induction params generalizing start with
  | nil => cases start <;> rfl
  | cons param rest ih =>
      cases start with
      | none => rw [slotArgs, slotSources, List.map_cons, heval, ih]
      | some offset => rw [slotArgs, slotSources, List.map_cons, ih]

theorem callArgs_eq (context : BlockContext) (insn : Instruction) (prototype : FunctionType)
    {l : Lowering} (hunknown : l.state.live.get? .unknown = none) :
    context.callArgs insn prototype l =
      (context.registerSources prototype ++ slotSources context.config.pointerSize
        (context.callStart insn l) prototype.stackParams).map l.eval := by
  rw [callArgs, slotArgs_eq hunknown, List.map_append]
  congr 1
  unfold registerArgs registerSources
  split
  · rw [List.map_map]
    rfl
  · rfl

/-! ## The call statement -/

/-- A statement that makes a call, and keeps its result or not. -/
def IsCall (context : BlockContext) (stmt : Stmt) (call : CExpr) : Prop :=
  stmt = .expr call ∨ stmt = .assign (.ofSymbol (.reg context.config.returnRegister)) call

/-- Finishing a call writes out what would be lost and emits the call. -/
theorem finishCall_emits (context : BlockContext) (insn : Instruction) (rest : List Instruction)
    (ret : CType) (call : CExpr) (l : Lowering) :
    ∃ stmt, context.IsCall stmt call ∧
      (context.finishCall insn rest ret call l).emission.body =
        l.emission.body ++ (l.state.commit [] context.savedFromCall).stmts ++ [stmt] ∧
      (context.finishCall insn rest ret call l).emission.cycles context.block =
        l.emission.cycles context.block +
          if (l.state.commit [] context.savedFromCall).cyclic then 1 else 0 := by
  rw [← body_commit context, ← cycles_commit context]
  unfold finishCall
  dsimp only
  split
  · exact ⟨_, Or.inr rfl, rfl, rfl⟩
  · exact ⟨_, Or.inl rfl, rfl, rfl⟩

/-- What a call returns: what the prototype of its function says, or a word. -/
def resultType (context : BlockContext) (insn : Instruction) (l : Lowering) : CType :=
  ((context.callee? insn (context.callReady l)).map FunctionType.ret).getD .word

/-- A direct call is finished with the type and the arguments that the prototype asks for. -/
theorem call_direct (context : BlockContext) {insn : Instruction} {target : Address}
    (htarget : context.scope.target? insn = some (.address target)) (rest : List Instruction)
    (l : Lowering) :
    ∃ name args declared,
      context.call insn rest l =
        context.finishCall insn rest (context.resultType insn l) (.call name args) declared ∧
      declared.state = (context.callReady l).state ∧
      declared.emission.body = (context.callReady l).emission.body ∧
      declared.emission.cycles context.block =
        (context.callReady l).emission.cycles context.block ∧
      args = ((context.callee? insn (context.callReady l)).map fun prototype =>
        context.callArgs insn prototype declared).getD [] := by
  have hlookup : ∀ found, (((context.callReady l).emission.declarations.declareOnce
      { name := context.scope.program.nameOf target context.config.externPrefix,
        kind := .function .unknown }).function?
          (context.scope.program.nameOf target context.config.externPrefix)) = found →
      context.callee? insn (context.callReady l) = found := by
    rintro found rfl
    rw [callee?, htarget]
  rw [resultType]
  unfold call
  simp only [htarget]
  split
  · rename_i prototype hprototype
    rw [hlookup _ hprototype]
    exact ⟨_, _, _, rfl, rfl, rfl, rfl, rfl⟩
  · rename_i hprototype
    rw [hlookup _ hprototype]
    exact ⟨_, _, _, rfl, rfl, rfl, rfl, rfl⟩

/-- A call is emitted after what it would destroy has been written out, with the
operands as they were evaluated before. -/
theorem call_emits (context : BlockContext) {insn : Instruction}
    (htarget : context.scope.target? insn ≠ none) (rest : List Instruction) {l : Lowering}
    (hunknown : (context.callReady l).state.live.get? .unknown = none) :
    ∃ stmt call, context.IsCall stmt call ∧
      call.operands =
        (context.callValues insn (context.callReady l) ++
          context.callSlots insn (context.callReady l)).map (context.callReady l).eval ∧
      (context.call insn rest l).emission.body = (context.callReady l).emission.body ++
        ((context.callReady l).state.commit [] context.savedFromCall).stmts ++ [stmt] ∧
      (context.call insn rest l).emission.cycles context.block =
        (context.callReady l).emission.cycles context.block +
          if ((context.callReady l).state.commit [] context.savedFromCall).cyclic then 1
          else 0 := by
  cases hcase : context.scope.target? insn with
  | none => exact absurd hcase htarget
  | some target =>
      cases target with
      | indirect value =>
          obtain ⟨stmt, hstmt, hbody, hcycles⟩ := context.finishCall_emits insn rest .word
            (.callPointer ((context.callReady l).eval value) .word []) (context.callReady l)
          have hcall : context.call insn rest l = context.finishCall insn rest .word
              (.callPointer ((context.callReady l).eval value) .word []) (context.callReady l) := by
            simp only [call, hcase]
            rfl
          rw [hcall, callValues, callSlots, callee?, hcase]
          exact ⟨stmt, _, hstmt, rfl, hbody, hcycles⟩
      | address target =>
          obtain ⟨name, args, declared, hcall, hstate, hbefore, hreports, hargs⟩ :=
            context.call_direct hcase rest l
          obtain ⟨stmt, hstmt, hbody, hcycles⟩ := context.finishCall_emits insn rest
            (context.resultType insn l) (.call name args) declared
          have heval : declared.eval = (context.callReady l).eval := by
            funext e
            rw [Lowering.eval, hstate, Lowering.eval]
          rw [hstate, hbefore] at hbody
          rw [hstate, hreports] at hcycles
          rw [hcall]
          refine ⟨stmt, _, hstmt, ?_, hbody, hcycles⟩
          rw [callValues, callSlots, hcase, CExpr.operands, hargs]
          cases context.callee? insn (context.callReady l) with
          | none => rfl
          | some prototype =>
              refine (context.callArgs_eq insn prototype (by rw [hstate, hunknown])).trans ?_
              rw [heval, callStart, hstate]
              rfl

/-! ## What the operands mean -/

variable {context : BlockContext} {world : CWorld} {l : Lowering} {c : CState}
  {machine : MachineState} {insn : Instruction}

end BlockContext

/-! ### Copies before a call -/

namespace CopyAndCall

open CWorld (silent)

def call : Instruction := .ofMnemonic 4 "call" [.imm 0x2000]

/-- Moves from register to register. -/
def copies (moves : List (Reg × Reg)) : List Instruction :=
  moves.map fun move => .ofMnemonic 0 "mov" [.ofReg move.1, .ofReg move.2]

def context : BlockContext :=
  { scope :=
      { disassembly := Program.disassembler
          { labels := SortedMap.empty.insert 0x2000 "f",
            bindings := SortedMap.empty.insert 0
              (SortedMap.empty.insert (.reg .esp) (.sym .framePtr)) },
        entry := 0, frameRegister := .ebp },
    config := {}, block := 0, required := [] }

/-- The called function takes two arguments in registers and one on the stack. -/
def prototype : FunctionType :=
  { ret := .void, params := [{ type := .word }, { type := .word }, { type := .word }],
    fastcall := true }

def start : Lowering :=
  { emission := { declarations := .ofList [{ name := "f", kind := .function prototype }] },
    state := { live := context.scope.blockFrame 0 },
    successors := [] }

def machine : MachineState :=
  { symbol := fun
      | .reg .esi => 1
      | .reg .edx => 2
      | .reg .edi => 3
      | _ => 0
    memory := fun _ => 4 }

/-- The saved copy does not concern the arguments. -/
def kept : List Instruction := copies [(.ecx, .edi), (.esi, .edx)]

end CopyAndCall

end Uncompile
