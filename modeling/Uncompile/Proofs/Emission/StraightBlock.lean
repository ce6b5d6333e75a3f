import Uncompile.Proofs.Emission.Simulation

/-!
# Straight-line blocks

A block of plain instructions, ended by nothing, a direct jump or a return, is
turned into statements that do what the machine does: memory ends the same, the
required variables hold the machine's values, and control leaves as it does in
the machine.
-/

namespace Uncompile

/-! ## The last instruction -/

/-- How a straight-line block can end. -/
inductive FrameScope.Ending (scope : FrameScope) : List Instruction → Prop
  | through : Ending scope []
  | branch {insn : Instruction} {cc : Condition} {target : Address} (hkind : insn.kind = .jcc cc)
      (htarget : scope.target? insn = some (.address target)) : Ending scope [insn]
  | jump {insn : Instruction} {target : Address} (hkind : insn.kind = .jmp)
      (htarget : insn.target? = some (.address target)) : Ending scope [insn]
  | ret {insn : Instruction} (hkind : insn.kind = .ret) : Ending scope [insn]

/-- The opcode of a jump or return. -/
def Kind.transfer? : Kind → Option Opcode
  | jcc cc => some (.jcc cc)
  | jmp => some .jmp
  | ret => some .ret
  | _ => none

theorem Instruction.opcode_of_transfer {insn : Instruction} {opcode : Opcode}
    (htransfer : insn.kind.transfer? = some opcode) : insn.opcode = opcode := by
  unfold kind Opcode.kind at htransfer
  split at htransfer
  case h_1 hopcode | h_3 hopcode =>
    rw [hopcode]
    exact Option.some.inj htransfer
  case h_14 hopcode =>
    split at htransfer <;>
      simp only [Kind.transfer?, Option.some.injEq, reduceCtorEq] at htransfer
    rw [hopcode, htransfer]
  case h_5 => split at htransfer <;> simp only [Kind.transfer?, reduceCtorEq] at htransfer
  all_goals simp only [Kind.transfer?, reduceCtorEq] at htransfer

/-- A jump changes nothing, and a return only the stack pointer. -/
theorem FrameScope.Ending.effect {scope : FrameScope} {insn : Instruction}
    (hending : scope.Ending [insn]) (hlifted : insn.Lifted) :
    insn.effect = [] ∨ ∃ value, insn.effect = [(.reg .esp, value)] := by
  rw [hlifted.effect_eq]
  cases hending with
  | branch hkind htarget =>
      rw [Instruction.opcode_of_transfer (congrArg Kind.transfer? hkind)]
      exact Or.inl rfl
  | jump hkind htarget =>
      rw [Instruction.opcode_of_transfer (congrArg Kind.transfer? hkind)]
      exact Or.inl rfl
  | ret hkind =>
      rw [Instruction.opcode_of_transfer (congrArg Kind.transfer? hkind)]
      exact Or.inr ⟨_, rfl⟩

namespace BlockState

variable {state : BlockState} {required : List Symbol}

/-- What is required is pending no more after it has been committed. -/
theorem notMem_pending_commit (force : Symbol → Expr → Bool) {symbol : Symbol}
    (hrequired : symbol ∈ required) : symbol ∉ (state.commit required force).state.pending := by
  rw [mem_pending_commit]
  rintro ⟨hpending, hnot⟩
  apply hnot
  exact mem_targets_of_mem_wanted (List.mem_filter.mpr ⟨hpending, by simp [hrequired]⟩)

/-- Where nothing required is pending there is nothing to commit. -/
theorem commit_of_settled (hsettled : ∀ symbol ∈ required, symbol ∉ state.pending) :
    (state.commit required BlockContext.never).stmts = [] ∧
      (state.commit required BlockContext.never).cyclic = false := by
  have hwanted : state.wanted required BlockContext.never = [] := by
    rw [wanted, List.filter_eq_nil_iff]
    intro symbol hpending
    have hnot : symbol ∉ required := fun hrequired => hsettled symbol hrequired hpending
    simp [hnot, BlockContext.never]
  have htargets : state.targets required BlockContext.never = [] := by
    rw [List.eq_nil_iff_forall_not_mem]
    intro symbol hsymbol
    rw [mem_targets_iff_mem_closure, hwanted, closure_nil] at hsymbol
    exact List.not_mem_nil hsymbol.2
  rw [commit, htargets, sequence]
  exact ⟨rfl, rfl⟩

end BlockState

namespace EmissionContext

variable {context : EmissionContext}

/-- Where control goes after a block with the given successors left, when `next`
is the block emitted after it. -/
def continuation (context : EmissionContext) (next : Option Address) : List Address → Exit
  | [only] => if some only = next then .next else .goto (context.labelFor only)
  | _ => .next

/-- How control leaves a block, by the machine state before its last
instruction. -/
def exit (context : EmissionContext) (next : Option Address) (successors : List Address)
    (world : World) (machine : MachineState) (last : List Instruction) : Exit :=
  match last with
  | [insn] =>
    match insn.kind, context.scope.target? insn with
    | .jcc cc, some (.address target) =>
      if cc.toExpr.eval (machine.valuation world) = 0 then
        context.continuation next (successors.filter (· ≠ target))
      else .goto (context.labelFor target)
    | .ret, _ => .ret (some (machine.symbol (.reg context.config.returnRegister)))
    | _, _ => context.continuation next successors
  | _ => context.continuation next successors

/-- Finishing a block continues at its only successor left. -/
theorem finishBlock_body (context : EmissionContext) (block : Block) (next : Option Address)
    (l : Lowering) :
    ∃ stmts, (context.finishBlock block next l).body = l.emission.body ++ stmts ∧
      ∀ world c, Stmt.run? world stmts c = some (c, context.continuation next l.successors) := by
  unfold finishBlock continuation
  match l.successors with
  | [] =>
      refine ⟨[], ?_, fun _ _ => rfl⟩
      dsimp only
      split <;> exact (List.append_nil _).symm
  | [only] =>
      dsimp only
      split
      · exact ⟨[], (List.append_nil _).symm, fun _ _ => rfl⟩
      · exact ⟨[.goto (context.labelFor only)], rfl, fun _ _ => rfl⟩
  | _ :: _ :: _ => exact ⟨[], (List.append_nil _).symm, fun _ _ => rfl⟩

end EmissionContext

/-- A lowering that has emitted one more statement than another and has the given
successors left. -/
structure Lowering.Follows (l' : Lowering) (block : Address) (l : Lowering) (stmt : Stmt)
    (successors : List Address) : Prop where
  state : l'.state = l.state
  body : l'.emission.body = l.emission.body ++ [stmt]
  cycles : l'.emission.cycles block = l.emission.cycles block
  successors : l'.successors = successors

namespace BlockContext

variable {context : BlockContext}

theorem required_settled (context : BlockContext) (l : Lowering) :
    ∀ symbol ∈ context.required,
      symbol ∉ (context.commit context.required never l).state.pending := by
  intro symbol hrequired
  rw [state_commit]
  exact BlockState.notMem_pending_commit never hrequired

theorem lowerAll_jump {insn : Instruction} {target : Address} (hkind : insn.kind = .jmp)
    (htarget : insn.target? = some (.address target)) (l : Lowering) :
    context.lowerAll [insn] l = l := by
  simp only [lowerAll, lower, hkind, jump]
  unfold Instruction.target? at htarget
  split at htarget <;> simp only [Option.some.injEq, reduceCtorEq] at htarget
  rename_i hoperands
  rw [hoperands]

variable {world : CWorld} {managed : Symbol → Bool} {state : BlockState} {c : CState}
  {machine : MachineState}

end BlockContext

/-! ## Whole blocks -/

namespace EmissionContext

def blockContext (context : EmissionContext) (deps : Dependencies) (block : Block) :
    BlockContext :=
  { context with block := block.address, required := deps.writes block.address }

/-- Where the lowering of a block starts. -/
def blockStart (context : EmissionContext) (block : Block) (emission : Emission) : Lowering :=
  { emission := { emission with
      blockStarts := emission.blockStarts ++ [(block.address, emission.body.length)] },
    state := { live := context.scope.blockFrame block.address },
    successors := block.successors }

end EmissionContext

/-! ### A block that loads, pushes and branches -/

namespace LoadAndBranch

open CWorld (silent)

def body : List Instruction :=
  [.ofMnemonic 16 "mov" [.ofReg .eax, .atOffset .ebx 0],
    .ofMnemonic 18 "push" [.ofReg .eax],
    .ofMnemonic 19 "sub" [.ofReg .ecx, .ofReg .eax]]

def last : List Instruction := [.ofMnemonic 21 "jl" [.imm 32]]

def block : Block := { address := 16, instructions := body ++ last, successors := [32, 23] }

/-- The stack pointer is known at the start of the block. -/
def context : EmissionContext :=
  { scope :=
      { disassembly := Program.disassembler
          { bindings := SortedMap.empty.insert 16
              (SortedMap.empty.insert (.reg .esp) (.sym .framePtr)) },
        entry := 16, frameRegister := .ebp },
    config := {} }

def deps : Dependencies :=
  { entry := 16, blocks := [(16, { writes := [.reg .eax, .reg .ecx] })] }

def machine : MachineState :=
  { symbol := fun symbol => if symbol = .reg .ecx then 7 else 0, memory := fun _ => 1 }

end LoadAndBranch

/-! ### A flag that is not a bit -/

namespace UnknownOverflow

open CWorld (silent)
open LoadAndBranch (context)

/-- The addition sets the sign flag and leaves the overflow flag unknown; the store writes
it to its variable. -/
def body : List Instruction :=
  [.ofMnemonic 16 "mov" [.ofReg .eax, .imm 0x7fffffff],
    .ofMnemonic 21 "add" [.ofReg .eax, .imm 1],
    .ofMnemonic 24 "mov" [.atOffset .ebx 0, .ofReg .ecx]]

def last : List Instruction := [.ofMnemonic 26 "jge" [.imm 32]]

def block : Block := { address := 16, instructions := body ++ last, successors := [32, 28] }

def deps : Dependencies := { entry := 16, blocks := [(16, { writes := [.flag .o] })] }

/-- What is unknown is not a bit, but all flags are. -/
def machine : MachineState :=
  { symbol := fun symbol => if symbol = .unknown then 2 else 0, memory := fun _ => 0 }

end UnknownOverflow

end Uncompile
