import Uncompile.Proofs.C.Semantics
import Uncompile.Proofs.Frame.Release
import Uncompile.Proofs.Program.Coverage

/-!
# Installed frame values are right

A table entry is right if every path from the function's entry to its block
leaves the register where the entry says, relative to the stack pointer at
entry. Resolving a block against right entries follows each path back to the
entry or to a block where the table settles the value, so that a sole candidate
at a known distance is right again. A placeholder says nothing and is right.
-/

namespace Uncompile

/-- A path along successor edges from the entry that does not come back to it,
with the instructions of the blocks that it has passed. -/
inductive PathFrom (blocks : SortedMap Address Block) (entry : Address) :
    List Instruction → Address → Prop
  | start : PathFrom blocks entry [] entry
  | step {insns : List Instruction} {address next : Address} {block : Block}
      (hpath : PathFrom blocks entry insns address) (hblock : blocks.get? address = some block)
      (hnext : next ∈ block.successors) (hentry : next ≠ entry) :
      PathFrom blocks entry (insns ++ block.instructions) next

/-- Lifted instructions in blocks whose first instructions are at their own addresses. -/
structure LiftedCode (blocks : SortedMap Address Block) : Prop where
  lifted : ∀ address block, blocks.get? address = some block →
    ∀ insn ∈ block.instructions, insn.Lifted
  first : ∀ address block, blocks.get? address = some block →
    ∀ insn, block.instructions.head? = some insn → insn.address = address

/-- On every path to an address, from any registers and in any memory, the symbol
ends up at a distance from the stack pointer at entry. -/
def PlacedAt (blocks : SortedMap Address Block) (entry address : Address) (symbol : Symbol)
    (offset : Int) : Prop :=
  ∀ insns, PathFrom blocks entry insns address → ∀ (world : World) (machine : MachineState),
    (machine.runRegisters world insns).symbol symbol =
      machine.symbol (.reg .esp) + toWord offset

/-- All values of a binding are right. -/
def Places (blocks : SortedMap Address Block) (entry address : Address) (binding : Binding) :
    Prop :=
  ∀ symbol value, binding.get? symbol = some value →
    ∃ offset, value.frameOffset? = some offset ∧ PlacedAt blocks entry address symbol offset

section Paths

variable {blocks : SortedMap Address Block} {entry address : Address}

theorem PathFrom.lifted {insns : List Instruction} (h : PathFrom blocks entry insns address)
    (hcode : LiftedCode blocks) : ∀ insn ∈ insns, insn.Lifted := by
  induction h with
  | start => exact List.forall_mem_nil _
  | step _ hblock _ _ ih => exact List.forall_mem_append.mpr ⟨ih, hcode.lifted _ _ hblock⟩

theorem places_empty : Places blocks entry address .empty := by
  intro symbol value hvalue
  simp at hvalue

theorem Places.insert {binding : Binding} (h : Places blocks entry address binding)
    {symbol : Symbol} {value : Expr} {offset : Int} (hoffset : value.frameOffset? = some offset)
    (hplaced : PlacedAt blocks entry address symbol offset) :
    Places blocks entry address (binding.insert symbol value) := by
  intro other found hfound
  rw [SortedMap.get?_insert] at hfound
  split at hfound
  · rename_i hsame
    cases hfound
    exact ⟨offset, hoffset, hsame ▸ hplaced⟩
  · exact h other found hfound

/-- The seed of a scope: the stack pointer is its own value at entry. -/
theorem places_seed :
    Places blocks entry entry (SortedMap.empty.insert (.reg .esp) (.sym .framePtr)) := by
  apply places_empty.insert rfl
  intro insns hpath world machine
  cases hpath with
  | start => simp [MachineState.runRegisters]
  | step _ _ _ hentry => exact absurd rfl hentry

end Paths

/-! ## Following a path backwards -/

namespace Program

variable {program : Program} {entry address : Address} {world : World} {machine : MachineState}

/-- All entries of the binding table are right. -/
def Placed (program : Program) (entry : Address) : Prop :=
  ∀ address binding, program.bindings.get? address = some binding →
    Places program.blocks entry address binding

/-- Writing right values to the table. -/
theorem Placed.setBinding (hplaced : program.Placed entry) {binding : Binding}
    (hbinding : Places program.blocks entry address binding) :
    (program.setBinding address binding).Placed entry := by
  intro other found hfound
  rw [Program.setBinding, SortedMap.get?_insert] at hfound
  split at hfound
  · rename_i hsame
    cases hfound
    exact hsame ▸ hbinding
  · exact hplaced other found hfound

theorem Placed.flaglessTable (hplaced : program.Placed entry) : program.FlaglessTable := by
  intro address binding hbinding symbol value hvalue
  obtain ⟨offset, hoffset, _⟩ := hplaced address binding hbinding symbol value hvalue
  exact Expr.flagless_of_traced (Expr.traced_of_frameOffset hoffset)

/-- On a path from a state that holds the stack pointer at entry, right entries
hold. -/
theorem Placed.holdsAt (hplaced : program.Placed entry) (hcode : LiftedCode program.blocks)
    (hstart : machine.symbol .framePtr = machine.symbol (.reg .esp)) {insns : List Instruction}
    (hpath : PathFrom program.blocks entry insns address) :
    program.HoldsAt ((machine.runRegisters world insns).valuation world) address := by
  intro binding hbinding symbol value hvalue
  obtain ⟨offset, hoffset, hat⟩ := hplaced address binding hbinding symbol value hvalue
  calc value.eval ((machine.runRegisters world insns).valuation world)
      = (machine.runRegisters world insns).symbol .framePtr + toWord offset :=
        Expr.eval_of_frameOffset hoffset
    _ = machine.symbol (.reg .esp) + toWord offset := by
        rw [MachineState.framePtr_runRegisters (hpath.lifted hcode), hstart]
    _ = (machine.runRegisters world insns).symbol symbol := (hat insns hpath world machine).symm

theorem Placed.holdingPath (hplaced : program.Placed entry) (hcode : LiftedCode program.blocks)
    (hstart : machine.symbol .framePtr = machine.symbol (.reg .esp)) {insns : List Instruction}
    (hpath : PathFrom program.blocks entry insns address) :
    program.HoldingPath world machine entry insns address := by
  induction hpath with
  | start => exact .start (hplaced.holdsAt hcode hstart .start)
  | step hpath hblock hnext hentry ih =>
      exact .step ih hblock hnext hentry
        (hplaced.holdsAt hcode hstart (.step hpath hblock hnext hentry))

/-- If a followed search has one candidate, at a known distance from the stack
pointer at entry, then every expression it has seen on a path has this value. -/
theorem eval_of_followed (hplaced : program.Placed entry) (hcode : LiftedCode program.blocks)
    {known : Visit → Prop} {only : Expr} {offset : Int}
    (hfollowed : Followed program entry known (fun _ => False) [only])
    (hoffset : only.frameOffset? = some offset)
    (hstart : machine.symbol .framePtr = machine.symbol (.reg .esp)) {insns : List Instruction}
    (hpath : PathFrom program.blocks entry insns address) {e : Expr} (he : e.Within .flagless)
    (hknown : known (address, e)) :
    e.eval ((machine.runRegisters world insns).valuation world) =
      machine.symbol (.reg .esp) + toWord offset := by
  obtain ⟨candidate, hfound, passed, _, hpassed, _, hvalue⟩ :=
    exists_end hcode.lifted hplaced.flaglessTable hfollowed
      (hplaced.holdingPath hcode hstart hpath) he hknown
  obtain rfl := List.mem_singleton.mp hfound
  calc e.eval ((machine.runRegisters world insns).valuation world)
      = candidate.eval ((machine.runRegisters world passed).valuation world) := hvalue.symm
    _ = (machine.runRegisters world passed).symbol .framePtr + toWord offset :=
        Expr.eval_of_frameOffset hoffset
    _ = machine.symbol (.reg .esp) + toWord offset := by
        rw [MachineState.framePtr_runRegisters (hpassed.forall_mem hcode.lifted), hstart]

end Program

/-! ## Resolving and installing -/

namespace FrameScope

variable {scope : FrameScope} {disassembly : Disassembly} {entry : Address}

/-- A scope over a disassembly whose table entries are right. -/
structure Right (disassembly : Disassembly) (entry : Address) (scope : FrameScope) : Prop where
  same_code : scope.Over disassembly
  entry_eq : scope.entry = entry
  placed : (scope.shown disassembly).Placed entry

/-- What is resolved at the start of a block is right. -/
theorem Right.resolve (h : Right disassembly entry scope)
    (hcode : LiftedCode disassembly.program.blocks) {address : Address} {block : Block}
    (hblock : disassembly.program.block? address = some block) {first : Instruction}
    (hfirst : block.instructions.head? = some first) {reg : Reg} {value : Expr}
    (hvalue : scope.resolve? reg first.address = some value) :
    ∃ offset, value.frameOffset? = some offset ∧
      PlacedAt disassembly.program.blocks entry address (.reg reg) offset := by
  obtain ⟨hover, rfl, hplaced⟩ := h
  have hshown : (scope.shown disassembly).block? address = some block := hblock
  have haddress := hcode.first address block hblock first hfirst
  rw [haddress, resolve?, hover.resolve_eq] at hvalue
  split at hvalue
  · rename_i only hfound
    split at hvalue
    · rename_i hsome
      obtain rfl := Option.some.inj hvalue
      obtain ⟨offset, hoffset⟩ := Option.isSome_iff_exists.mp hsome
      refine ⟨offset, hoffset, fun insns hpath world machine => ?_⟩
      obtain ⟨known, hknown, hfollowed⟩ := Program.backtrace_followed
        (Program.locate?_first hshown hfirst haddress)
        (by rw [hfound]; exact List.cons_ne_nil _ _)
      rw [hfound] at hfollowed
      rw [Program.address_of_block? hblock] at hknown
      have hkept := machine.operand_atEntry
      calc (machine.runRegisters world insns).symbol (.reg reg)
          = (machine.atEntry.runRegisters world insns).symbol (.reg reg) :=
            MachineState.runRegisters_congr (hpath.lifted hcode) machine.memory_atEntry.symm
              (fun symbol hsymbol => (hkept symbol hsymbol).symm) _ rfl
        _ = machine.atEntry.symbol (.reg .esp) + toWord offset :=
            Program.eval_of_followed hplaced hcode hfollowed hoffset machine.framePtr_atEntry hpath
              (show Expr.Within .flagless (.sym (.reg reg)) from fun _ => Symbol.noConfusion) hknown
        _ = machine.symbol (.reg .esp) + toWord offset := by rw [hkept (.reg .esp) rfl]
    · cases hvalue
  · cases hvalue

theorem Right.patch (h : Right disassembly entry scope) {address : Address} {binding : Binding}
    (hbinding : Places disassembly.program.blocks entry address binding) :
    Right disassembly entry (scope.patch address binding) :=
  ⟨h.same_code, h.entry_eq, h.placed.setBinding hbinding⟩

section Block

variable (h : Right disassembly entry scope) (hcode : LiftedCode disassembly.program.blocks)
  {address : Address} {block : Block} (hblock : disassembly.program.block? address = some block)
  {first : Instruction} (hfirst : block.instructions.head? = some first)

include h hcode hblock hfirst

theorem Right.resolveStack {known : Binding}
    (hknown : Places disassembly.program.blocks entry address known) :
    Right disassembly entry (scope.resolveStack address first.address known).1 ∧
      Places disassembly.program.blocks entry address
        (scope.resolveStack address first.address known).2 := by
  rw [FrameScope.resolveStack]
  split
  · rename_i value hvalue
    obtain ⟨offset, hoffset, hplaced⟩ := h.resolve hcode hblock hfirst hvalue
    exact ⟨h, hknown.insert hoffset hplaced⟩
  · exact ⟨⟨h.same_code, h.entry_eq, h.placed⟩, hknown⟩

theorem Right.resolveFrame {known : Binding}
    (hknown : Places disassembly.program.blocks entry address known) :
    Places disassembly.program.blocks entry address
      (scope.resolveFrame first.address known).2 := by
  rw [FrameScope.resolveFrame]
  split
  · split
    · rename_i value hvalue
      obtain ⟨offset, hoffset, hplaced⟩ := h.resolve hcode hblock hfirst hvalue
      exact hknown.insert hoffset hplaced
    · exact hknown
  · exact hknown

/-- A block is resolved against the table so far, with a placeholder for itself. -/
theorem Right.places_known :
    Places disassembly.program.blocks entry address (scope.known address first) := by
  obtain ⟨hstacked, hstack⟩ :=
    (h.patch places_empty).resolveStack hcode hblock hfirst places_empty
  exact hstacked.resolveFrame hcode hblock hfirst hstack

end Block

theorem Right.installBlock (h : Right disassembly entry scope)
    (hcode : LiftedCode disassembly.program.blocks) (address : Address) :
    Right disassembly entry (scope.installBlock address) := by
  rcases scope.installBlock_cases address with hsame | ⟨first, hfound, hwritten, -, hentry⟩
  · rw [hsame]
    exact h
  · obtain ⟨block, hvisible, hfirst⟩ := Option.bind_eq_some_iff.mp hfound
    rw [block?_eq h.same_code] at hvisible
    have hknown := h.places_known hcode (Disassembly.program_block? hvisible) hfirst
    refine ⟨(scope.view_installBlock address).trans h.same_code, hentry.trans h.entry_eq, ?_⟩
    rw [shown, hwritten]
    exact (h.placed.setBinding places_empty).setBinding hknown

theorem Right.foldl_installBlock (h : Right disassembly entry scope)
    (hcode : LiftedCode disassembly.program.blocks) (addresses : List Address) :
    Right disassembly entry (addresses.foldl FrameScope.installBlock scope) := by
  induction addresses generalizing scope with
  | nil => exact h
  | cons address rest ih => exact ih (h.installBlock hcode address)

/-- The frame values that installing puts into an empty table are right: on every
path from the entry to the block that does not come back to the entry, whatever
the registers and the memory, the register is at the stated distance from the
stack pointer at entry. -/
theorem install_sound (hcode : LiftedCode disassembly.program.blocks)
    (hempty : disassembly.program.bindings = .empty) (entry : Address) (addresses : List Address)
    (frameRegister : Reg) {address : Address} {binding : Binding}
    (hbinding : (install disassembly entry addresses frameRegister).disassembly.bindings.get?
      address = some binding)
    {reg : Reg} {value : Expr} (hvalue : binding.get? (.reg reg) = some value) {offset : Int}
    (hoffset : value.frameOffset? = some offset) {insns : List Instruction}
    (hpath : PathFrom disassembly.program.blocks entry insns address) (world : World)
    (machine : MachineState) :
    (machine.runRegisters world insns).symbol (.reg reg) =
      machine.symbol (.reg .esp) + toWord offset := by
  have hopened : Right disassembly entry { disassembly, entry, frameRegister } := by
    refine ⟨rfl, rfl, fun address binding hbinding => ?_⟩
    have hnone : disassembly.program.bindings.get? address = some binding := hbinding
    rw [hempty, SortedMap.get?_empty] at hnone
    cases hnone
  have hright := (hopened.patch places_seed).foldl_installBlock hcode addresses
  obtain ⟨found, hfound, hplaced⟩ := hright.placed address binding hbinding _ _ hvalue
  obtain rfl : found = offset := Option.some.inj (hfound.symm.trans hoffset)
  exact hplaced insns hpath world machine

end FrameScope

/-! ## A loop behind a prologue -/

namespace PushInLoop

open CWorld (silent)

def prologue : Block :=
  { address := 16, instructions := [.ofMnemonic 16 "push" [.ofReg .ebp]], successors := [32] }

def body : Block :=
  { address := 32
    instructions := [.ofMnemonic 32 "push" [.ofReg .eax], .ofMnemonic 33 "pop" [.ofReg .edx]]
    successors := [32, 48] }

def disassembly : Disassembly :=
  { program := [prologue, body].foldl Program.insertBlock {} }

theorem installed :
    (FrameScope.install disassembly 16 [16, 32] .ebp).disassembly.bindings.get? 32 =
      some (SortedMap.empty.insert (.reg .esp) (.add (.sym .framePtr) (.const (-4)))) := by
  rw [Disassembly.disassembler_eq_listed]
  decide +kernel

theorem liftedCode : LiftedCode disassembly.program.blocks where
  lifted address block hblock := by
    have hentry : (address, block) ∈ [(16, prologue), (32, body)] := SortedMap.mem_of_get? hblock
    simp only [List.mem_cons, Prod.mk.injEq, List.not_mem_nil, or_false] at hentry
    rcases hentry with ⟨_, rfl⟩ | ⟨_, rfl⟩
    · exact List.forall_mem_singleton.mpr rfl
    · exact List.forall_mem_cons.mpr ⟨rfl, List.forall_mem_singleton.mpr rfl⟩
  first address block hblock := by
    have hentry : (address, block) ∈ [(16, prologue), (32, body)] := SortedMap.mem_of_get? hblock
    simp only [List.mem_cons, Prod.mk.injEq, List.not_mem_nil, or_false] at hentry
    rcases hentry with ⟨rfl, rfl⟩ | ⟨rfl, rfl⟩ <;> rintro insn ⟨⟩ <;> rfl

def machine : MachineState :=
  { symbol := fun symbol => if symbol = .reg .esp then 0x1000 else 0, memory := fun _ => 0 }

/-- After the prologue and one round of the loop, the stack pointer is four below
the one at entry. -/
theorem install_sound_second_round :
    (FrameScope.install disassembly 16 [16, 32] .ebp).disassembly.bindings.get? 32 =
        some (SortedMap.empty.insert (.reg .esp) (.add (.sym .framePtr) (.const (-4)))) ∧
      (machine.runRegisters silent.toWorld (prologue.instructions ++ body.instructions)).symbol
        (.reg .esp) = 0xffc := by
  have hentered : PathFrom disassembly.program.blocks 16 ([] ++ prologue.instructions) 32 :=
    .step .start (show _ = some prologue from rfl) (List.mem_singleton_self _)
      (show (32 : Address) ≠ 16 by decide)
  have hround : PathFrom disassembly.program.blocks 16
      (prologue.instructions ++ body.instructions) 32 :=
    .step hentered (show _ = some body from rfl) List.mem_cons_self
      (show (32 : Address) ≠ 16 by decide)
  have hoffset : (Expr.add (.sym .framePtr) (.const (-4))).frameOffset? = some (-4) := rfl
  refine ⟨installed, ?_⟩
  exact FrameScope.install_sound liftedCode rfl 16 [16, 32] .ebp installed rfl hoffset hround
    silent.toWorld machine

end PushInLoop

end Uncompile
