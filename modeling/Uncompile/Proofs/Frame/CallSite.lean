import Uncompile.Proofs.Emission.FrameValues
import Uncompile.Proofs.Frame.Distance

/-!
# The stack pointer at a call

Where a call is lowered, the stack pointer can be found in two ways: backwards from the
address of the call through the whole function, and as the value that the lowering of the
block has at hand. Both follow the same instructions, so they agree as long as the values
at hand mean what they meant when they were computed. That can fail in one way only: the
value of the stack pointer mentions a register, and the variable of that register gets a
new value by a commit or a call while the value stays as it is.
-/

namespace Uncompile

/-! ## The start of a block -/

namespace FrameScope

variable {scope : FrameScope} {disassembly : Disassembly}

/-- What a block starts with is what the table says. -/
theorem get?_of_blockFrame {block : Address} {symbol : Symbol} {value : Expr}
    (hvalue : (scope.blockFrame block).get? symbol = some value) :
    ∃ binding, scope.disassembly.bindings.get? block = some binding ∧
      binding.get? symbol = some value := by
  unfold blockFrame at hvalue
  split at hvalue
  · rename_i binding hbinding
    have hmem := List.mem_of_mem_filter (SortedMap.mem_of_get? hvalue)
    exact ⟨binding, hbinding, SortedMap.get?_of_mem hmem⟩
  · rw [SortedMap.get?_empty] at hvalue
    cases hvalue

theorem follows_blockFrame (htable : (scope.shown disassembly).FrameTable) (block : Address)
    (kept : List Reg) :
    BlockState.Follows scope.isManaged kept { live := scope.blockFrame block } where
  toFramed := scope.framed_blockFrame block
  form _ _ value hvalue := by
    obtain ⟨-, offset, hoffset⟩ := blockFrame_spec hvalue
    obtain ⟨binding, hbinding, hfound⟩ := get?_of_blockFrame hvalue
    have hsteady : value.Steady (Symbol.among kept) := by
      refine ⟨Expr.readsMemory_of_frameOffset hoffset, fun read hread hprocessor => ?_⟩
      rw [Expr.references_of_frameOffset hoffset hread] at hprocessor
      cases hprocessor
    exact ⟨hsteady, Expr.flagless_of_traced (Expr.traced_of_frameOffset hoffset),
      (htable block binding hbinding _ _ hfound).2.1⟩

/-- The machine whose registers are where the table has them at a block. -/
def placed (scope : FrameScope) (block : Address) (world : World) (machine : MachineState) :
    MachineState :=
  { machine with
    symbol := ((machine.valuation world).bind
      ((scope.disassembly.bindings.get? block).getD .empty)).symbol }

theorem framePtr_placed (htable : (scope.shown disassembly).FrameTable) (block : Address)
    (world : World) (machine : MachineState) :
    (scope.placed block world machine).symbol .framePtr = machine.symbol .framePtr := by
  refine Valuation.bind_symbol_of_none ?_
  cases hbinding : scope.disassembly.bindings.get? block with
  | none => rfl
  | some binding =>
      refine Option.eq_none_iff_forall_ne_some.mpr fun value hvalue => ?_
      obtain ⟨⟨r, hr⟩, -⟩ := htable block binding hbinding _ _ hvalue
      cases hr

theorem denotes_blockFrame (htable : (scope.shown disassembly).FrameTable) (block : Address)
    (kept : List Reg) (world : World) (machine : MachineState) :
    Denotes kept (scope.blockFrame block)
      ((scope.placed block world machine).valuation world) world
      (scope.placed block world machine) where
  outside _ _ := rfl
  byZero := rfl
  value r hr := by
    cases hvalue : (scope.blockFrame block).get? (.reg r) with
    | none => exact Valuation.bind_symbol_of_none hvalue
    | some value =>
        obtain ⟨-, offset, hoffset⟩ := blockFrame_spec hvalue
        obtain ⟨binding, hbinding, hfound⟩ := get?_of_blockFrame hvalue
        have hplaced : (scope.placed block world machine).symbol (.reg r) =
            value.eval (machine.valuation world) := by
          simp only [placed, hbinding, Option.getD_some]
          exact Valuation.bind_symbol_of_some hfound
        rw [Valuation.bind_symbol_of_some hvalue, hplaced, Expr.eval_of_frameOffset hoffset,
          Expr.eval_of_frameOffset hoffset]
        exact congrArg (· + toWord offset) (scope.framePtr_placed htable block world machine)

/-- Applying the table at a block gives an expression the value that it has on the machine
whose registers are where the table has them. -/
theorem eval_settle_placed (htable : (scope.shown disassembly).FrameTable) (block : Address)
    {e : Expr} (he : e.Within .flagless) :
    ((scope.shown disassembly).settle (block, e)).1.Within .flagless ∧
      ∀ (world : World) (machine : MachineState),
        ((scope.shown disassembly).settle (block, e)).1.eval (machine.valuation world) =
          e.eval ((scope.placed block world machine).valuation world) := by
  simp only [Program.settle, placed, bindings_shown]
  cases hbinding : scope.disassembly.bindings.get? block with
  | none => exact ⟨he, fun _ _ => rfl⟩
  | some binding =>
      have hbound : (e.bind binding).Within .flagless := by
        refine Expr.within_bind he fun symbol value _ hvalue => ?_
        obtain ⟨-, -, hsome⟩ := htable block binding hbinding symbol value hvalue
        obtain ⟨offset, hoffset⟩ := Option.isSome_iff_exists.mp hsome
        exact Expr.flagless_of_traced (Expr.traced_of_frameOffset hoffset)
      refine ⟨Expr.within_reduce hbound, fun world machine => ?_⟩
      dsimp only
      rw [Expr.eval_reduce_of_flagless hbound, Expr.eval_bind]
      rfl

end FrameScope

namespace EmissionContext

variable (context : EmissionContext) (deps : Dependencies) {disassembly : Disassembly}
  {block : Block} {kept : List Reg} {first : List Instruction}

/-- If the lowering of a block has the stack pointer at a distance from the one at entry,
then so does the expression from which a backward search sets out. -/
theorem liesAt_of_lowerUpTo (htable : (context.scope.shown disassembly).FrameTable)
    (hlifted : ∀ insn ∈ first, insn.Lifted) (hret : ∀ insn ∈ first, insn.kind ≠ .ret)
    (hmoves : ∀ insn ∈ first, insn.MovesFrame (Symbol.among kept)) (hesp : .esp ∈ kept)
    (emission : Emission) (rest : List Instruction)
    (hapart : (context.blockContext deps block).ApartThroughout kept first rest
      (context.blockStart block emission))
    {value : Expr} {offset : Int}
    (hvalue : ((context.blockContext deps block).lowerUpTo first rest
      (context.blockStart block emission)).state.live.get? (.reg .esp) = some value)
    (hoffset : value.frameOffset? = some offset) :
    ((context.scope.shown disassembly).settle
      (block.address, rewind first (.sym (.reg .esp)))).1.LiesAt offset := by
  have hreg : (Expr.sym (.reg .esp)).Within .flagless := fun _ => Symbol.noConfusion
  obtain ⟨hflagless, hsettle⟩ := FrameScope.eval_settle_placed htable block.address
    (flagless_rewind hlifted hreg)
  refine ⟨hflagless, fun world machine => ?_⟩
  obtain ⟨v, hdenotes⟩ := (context.blockContext deps block).denotes_lowerUpTo hlifted hret hmoves
    (l := context.blockStart block emission)
    (FrameScope.follows_blockFrame htable block.address kept) rest hapart
    (FrameScope.denotes_blockFrame htable block.address kept world machine)
  have hframe : v.symbol .framePtr = machine.symbol .framePtr := by
    rw [hdenotes.outside .framePtr rfl, MachineState.framePtr_runRegisters hlifted,
      FrameScope.framePtr_placed htable]
  have hstack := hdenotes.value .esp hesp
  rw [Valuation.bind_symbol_of_some hvalue, Expr.eval_of_frameOffset hoffset, hframe] at hstack
  rw [hsettle, eval_rewind world hlifted hreg]
  exact hstack.symm

/-- Looking back from an instruction of a block and lowering the block up to it agree on the
stack pointer's distance from the one at entry, wherever the registers that it is computed
from are computed from each other only and their values stay apart. They do if the frame
manages all these registers and neither calls, port inputs nor loops change them. -/
theorem stackOffsetAt_eq_live
    (hlifted : ∀ block ∈ disassembly.program.blocks.values, ∀ insn ∈ block.instructions,
      insn.Lifted)
    (hempty : disassembly.program.bindings = .empty) {entry : Address} {addresses : List Address}
    {frameRegister : Reg}
    (hscope : context.scope = .install disassembly entry addresses frameRegister)
    {call : Instruction} {rest : List Instruction}
    (hblock : block.instructions = first ++ call :: rest)
    (hlocate : disassembly.program.locate? call.address = some (block, first.length))
    (hesp : .esp ∈ kept) (hret : ∀ insn ∈ first, insn.kind ≠ .ret)
    (hmoves : ∀ insn ∈ first, insn.MovesFrame (Symbol.among kept)) (emission : Emission)
    {inner : BlockContext} (hinner : context.blockContext deps block = inner) {start : Lowering}
    (hstart : context.blockStart block emission = start) :
    (inner.ApartThroughout kept first (call :: rest) start →
      ∀ k k', context.scope.stackOffsetAt? call.address = some k →
        ((inner.lowerUpTo first (call :: rest) start).state.live.get? (.reg .esp)).bind
          Expr.frameOffset? = some k' →
        k = k') ∧
    ((∀ r ∈ kept, context.scope.isManaged (.reg r) ∧
        r ∉ .eax :: .ecx :: context.config.scratchRegisters) →
      inner.ApartThroughout kept first (call :: rest) start) := by
  have htable := FrameScope.frameTable_install hempty entry addresses frameRegister
  have hover : (FrameScope.install disassembly entry addresses frameRegister).Over disassembly :=
    FrameScope.view_install disassembly entry addresses frameRegister
  rw [← hscope] at htable hover
  subst hinner hstart
  have hfirst : ∀ insn ∈ first, insn.Lifted := by
    have hall := hlifted block (Program.mem_values_of_locate? hlocate)
    rw [hblock] at hall
    exact (List.forall_mem_append.mp hall).1
  have hfollows : (context.blockStart block emission).state.Follows context.scope.isManaged kept :=
    FrameScope.follows_blockFrame htable block.address kept
  refine ⟨fun hapart k k' hback hlive => ?_, fun hmanaged =>
    (context.blockContext deps block).apartThroughout_of_managed hfirst hmoves hfollows.toFramed
      hmanaged _⟩
  obtain ⟨found, hfound, hk⟩ := Option.bind_eq_some_iff.mp hback
  obtain ⟨value, hvalue, hk'⟩ := Option.bind_eq_some_iff.mp hlive
  obtain ⟨hmem, -⟩ := hover.mem_backtrace_of_resolve? hfound
  have hlies := context.liesAt_of_lowerUpTo deps htable hfirst hret hmoves hesp emission
    (call :: rest) hapart hvalue hk'
  have htake : block.instructions.take first.length = first := by simp [hblock]
  rw [← htake] at hlies
  have hform := ((context.blockContext deps block).follows_lowerUpTo hfirst hmoves hfollows
    (call :: rest)).form .esp hesp value hvalue
  exact (htable.liesAt_of_mem_backtrace hlifted hlocate hlies hmem).offset_eq
    (Expr.wrap32_of_normal hform.normal hk') (Program.normal_of_mem_backtrace hmem) hk

end EmissionContext

/-! ### Moving the stack pointer by the frame register -/

namespace FrameRegisterKept

def prologue : Block :=
  { address := 16
    instructions :=
      [.ofMnemonic 16 "push" [.ofReg .ebp], .ofMnemonic 17 "mov" [.ofReg .ebp, .ofReg .esp]]
    successors := [32] }

/-- The stack pointer is set from the frame register, and an argument is stored. -/
def moves : List Instruction :=
  [.ofMnemonic 32 "lea" [.ofReg .esp, .atOffset .ebp (-12)],
    .ofMnemonic 35 "mov" [.atOffset .esp 0, .ofReg .eax]]

def call : Instruction := .ofMnemonic 38 "call" [.imm 64]

def block : Block := { address := 32, instructions := moves ++ [call] }

def disassembly : Disassembly :=
  { program := [prologue, block].foldl Program.insertBlock {} }

/-- Both registers are four below the stack pointer at entry. -/
def scope : FrameScope :=
  { disassembly :=
      (disassembly.disassembler.setBinding 16
        (SortedMap.empty.insert (.reg .esp) (.sym .framePtr))).setBinding 32
          ((SortedMap.empty.insert (.reg .esp) (.frame (-4))).insert (.reg .ebp) (.frame (-4)))
    entry := 16
    frameRegister := .ebp
    saved := [(32, none), (16, none)]
    frameRegisterResolved := true }

theorem installed : scope = .install disassembly 16 [16, 32] .ebp := by
  rw [scope, Disassembly.disassembler_eq_listed]
  with_unfolding_all rfl

def context : EmissionContext := ⟨scope, {}⟩

def deps : Dependencies := { entry := 16, blocks := [] }

/-- Where the call is reached. -/
def before : Lowering :=
  (context.blockContext deps block).lowerUpTo moves [call]
    (context.blockStart block { declarations := {} })

/-- The stack pointer is sixteen below the one at entry, seen from either side. -/
theorem stackOffsetAt_eq_live_argument :
    (before.state.live.get? (.reg .esp)).bind Expr.frameOffset? = some (-16) ∧
      context.scope.stackOffsetAt? call.address = some (-16) := by
  have hlifted : ∀ member ∈ disassembly.program.blocks.values, ∀ insn ∈ member.instructions,
      insn.Lifted := by
    show ∀ member ∈ [prologue, block], _
    simp only [prologue, block, moves, List.cons_append, List.nil_append, List.forall_mem_cons]
    exact ⟨⟨rfl, rfl, List.forall_mem_nil _⟩, ⟨rfl, rfl, rfl, List.forall_mem_nil _⟩,
      List.forall_mem_nil _⟩
  have hlive : (before.state.live.get? (.reg .esp)).bind Expr.frameOffset? = some (-16) := by
    decide +kernel
  have hfound : (context.scope.stackOffsetAt? call.address).isSome := by
    rw [context, scope, Disassembly.disassembler_eq_listed]
    decide +kernel
  obtain ⟨k, hk⟩ := Option.isSome_iff_exists.mp hfound
  obtain ⟨hagree, hapart⟩ := context.stackOffsetAt_eq_live deps hlifted rfl installed
    (show block.instructions = moves ++ [call] from rfl) rfl
    (show Reg.esp ∈ [.esp, .ebp] from List.mem_cons_self) (by decide +kernel)
    (by decide +kernel) { declarations := {} } rfl rfl
  exact ⟨hlive, hk.trans (congrArg some (hagree (hapart (by decide +kernel)) k _ hk hlive))⟩

end FrameRegisterKept

namespace FrameRegisterWritten

/-- The stack pointer moves up by the frame register and, once that has been moved and
written out before a store, down by it. -/
def moves : List Instruction :=
  [.ofMnemonic 16 "lea" [.ofReg .esp, .mem { base := some .esp, index := some .ebp }],
    .ofMnemonic 19 "lea" [.ofReg .ebp, .atOffset .ebp 8],
    .ofMnemonic 22 "mov" [.atOffset .ebx 0, .ofReg .esi],
    .ofMnemonic 24 "sub" [.ofReg .esp, .ofReg .ebp]]

def call : Instruction := .ofMnemonic 26 "call" [.atOffset .esp 0]

def block : Block := { address := 16, instructions := moves ++ [call], successors := [32] }

def epilogue : Block :=
  { address := 32
    instructions := [.ofMnemonic 32 "mov" [.ofReg .eax, .ofReg .ebp], .ofMnemonic 34 "ret" []] }

def disassembly : Disassembly :=
  { program := [block, epilogue].foldl Program.insertBlock {} }

/-- Nothing is known of the frame register. -/
def scope : FrameScope :=
  { disassembly :=
      (disassembly.disassembler.setBinding 16
        (SortedMap.empty.insert (.reg .esp) (.sym .framePtr))).setBinding 32
          (SortedMap.empty.insert (.reg .esp) (.frame (-8)))
    entry := 16
    frameRegister := .ebp
    saved := [(32, none), (16, none)]
    usesFrameRegister := false }

def context : EmissionContext := ⟨scope, {}⟩

def deps : Dependencies :=
  (AnalysisContext.collect ⟨scope, {}, {}⟩ [16, 32]).toOption.getD { entry := 16, blocks := [] }

/-- Where the call is reached. -/
def before : Lowering :=
  (context.blockContext deps.eliminateDeadWrites block).lowerUpTo moves [call]
    (context.blockStart block { declarations := {} })

/-- The stack pointer is eight below the one at entry. Lowering cancels the frame register's
value from before it was written out with the one from after it. -/
theorem stack_offset_differs :
    (∀ member ∈ disassembly.program.blocks.values, ∀ insn ∈ member.instructions, insn.Lifted) ∧
      disassembly.program.bindings = .empty ∧
      context.scope = .install disassembly 16 [16, 32] .ebp ∧ call.kind = .call ∧
      disassembly.program.locate? call.address = some (block, moves.length) ∧
      (∀ insn ∈ moves, insn.kind = .plain ∧ insn.MovesFrame (Symbol.among [.esp, .ebp])) ∧
      context.scope.stackOffsetAt? call.address = some (-8) ∧
      (before.state.live.get? (.reg .esp)).bind Expr.frameOffset? = some 0 := by
  have hlifted : ∀ member ∈ [block, epilogue], ∀ insn ∈ member.instructions, insn.Lifted := by
    simp only [block, epilogue, moves, List.cons_append, List.nil_append, List.forall_mem_cons]
    exact ⟨⟨rfl, rfl, rfl, rfl, rfl, List.forall_mem_nil _⟩, ⟨rfl, rfl, List.forall_mem_nil _⟩,
      List.forall_mem_nil _⟩
  have hinstalled : context.scope = .install disassembly 16 [16, 32] .ebp := by
    rw [context, scope, Disassembly.disassembler_eq_listed]
    with_unfolding_all rfl
  have hoffset : context.scope.stackOffsetAt? call.address = some (-8) := by
    rw [context, scope, Disassembly.disassembler_eq_listed]
    decide +kernel
  exact ⟨hlifted, rfl, hinstalled, by decide +kernel, rfl, by decide +kernel, hoffset,
    by decide +kernel⟩

end FrameRegisterWritten

end Uncompile
