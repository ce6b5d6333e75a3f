import Uncompile.Proofs.Program.Rewind
import Uncompile.Proofs.Program.Search

/-!
# A backward search covers every path

Follow a path backwards from where a search started. At each block the search
has seen the expression that has, at the block's entry, the value asked for,
until it ends at the snapshot block or where the table leaves no register in the
expression. Nothing on the path changes such an expression any more, so the
candidate found there has the same value at the start of the path.
-/

namespace Uncompile

/-- A special register. -/
def Location.isSpecial : Location → Bool
  | .sym (.special _) => true
  | _ => false

/-- A lifted instruction that writes no special register. -/
structure Instruction.KeepsSpecial (insn : Instruction) : Prop where
  lifted : insn.Lifted
  unwritten : ∀ write ∈ insn.effect, write.1.isSpecial = false

/-- It binds registers and flags only. -/
theorem Instruction.KeepsSpecial.get?_eq_none {insn : Instruction} (h : insn.KeepsSpecial)
    {symbol : Symbol} (hsymbol : symbol.isRegister = false) :
    insn.registerEffect.get? symbol = none := by
  cases symbol with
  | reg | flag => cases hsymbol
  | special special =>
      by_contra hbound
      obtain ⟨value, hvalue⟩ := Option.ne_none_iff_exists'.mp hbound
      exact Bool.false_ne_true (h.unwritten _ (Effect.mem_of_get?_toBinding hvalue)).symm
  | _ => exact h.lifted.get?_of_offProcessor rfl

namespace Program

/-- The entries of the table for a block hold in a valuation. -/
def HoldsAt (program : Program) (v : Valuation) (address : Address) : Prop :=
  ∀ binding, program.bindings.get? address = some binding →
    ∀ symbol value, binding.get? symbol = some value → value.eval v = v.symbol symbol

/-- A path along successor edges from the snapshot block that does not come back
to it, with the instructions of the blocks that it has passed. Whenever it comes
to a block, the table holds in the state reached by then. -/
inductive HoldingPath (program : Program) (world : World) (machine : MachineState)
    (snapshot : Address) : List Instruction → Address → Prop
  | start (hholds : program.HoldsAt (machine.valuation world) snapshot) :
      HoldingPath program world machine snapshot [] snapshot
  | step {insns : List Instruction} {address next : Address} {block : Block}
      (hpath : HoldingPath program world machine snapshot insns address)
      (hblock : program.block? address = some block) (hnext : next ∈ block.successors)
      (hother : next ≠ snapshot)
      (hholds : program.HoldsAt
        ((machine.runRegisters world (insns ++ block.instructions)).valuation world) next) :
      HoldingPath program world machine snapshot (insns ++ block.instructions) next

/-- The values of the table can be carried backwards: they mention no flag and
have neither equalities nor logical operators. -/
def FlaglessTable (program : Program) : Prop :=
  ∀ address binding, program.bindings.get? address = some binding →
    ∀ symbol value, binding.get? symbol = some value → value.Within .flagless

variable {program : Program} {world : World} {machine : MachineState} {snapshot address : Address}
  {insns : List Instruction}

theorem HoldingPath.forall_mem {P : Instruction → Prop}
    (hcode : ∀ address block, program.block? address = some block →
      ∀ insn ∈ block.instructions, P insn)
    (h : program.HoldingPath world machine snapshot insns address) : ∀ insn ∈ insns, P insn := by
  induction h with
  | start => exact List.forall_mem_nil _
  | step _ hblock _ _ _ ih => exact List.forall_mem_append.mpr ⟨ih, hcode _ _ hblock⟩

/-- Where the table holds, applying it to an expression does not change its
value. -/
theorem eval_settle (htable : program.FlaglessTable) {v : Valuation}
    (hholds : program.HoldsAt v address) {e : Expr} (he : e.Within .flagless) :
    (program.settle (address, e)).1.Within .flagless ∧
      (program.settle (address, e)).1.eval v = e.eval v := by
  cases hbinding : program.bindings.get? address with
  | none =>
      rw [show program.settle (address, e) = (e, false) by simp only [settle, hbinding]]
      exact ⟨he, rfl⟩
  | some binding =>
      have hbound : (e.bind binding).Within .flagless :=
        Expr.within_bind he fun symbol value _ hvalue =>
          htable address binding hbinding symbol value hvalue
      simp only [settle, hbinding]
      refine ⟨Expr.within_reduce hbound, ?_⟩
      rw [Expr.eval_reduce_of_flagless hbound, Expr.eval_bind,
        Valuation.bind_eq_self (hholds binding hbinding)]

/-- What the table settles has no registers. -/
theorem hasRegisters_of_settle {visit : Visit} (hsettled : (program.settle visit).2) :
    (program.settle visit).1.hasRegisters = false := by
  unfold settle at hsettled ⊢
  split at hsettled
  · simpa using hsettled
  · cases hsettled

/-- A search that ends on the way, at a block with a predecessor, ends because the
table has settled the expression. -/
theorem settled_of_ends {e : Expr} (hends : program.Ends snapshot (address, e))
    (hother : address ≠ snapshot) {visit : Visit} {settled : Expr}
    (hbefore : visit ∈ program.visitsBefore address settled) : (program.settle (address, e)).2 := by
  have hpredecessors : (program.predecessors address).isEmpty = false := by
    cases hnone : program.predecessors address with
    | nil => simp [visitsBefore, hnone] at hbefore
    | cons => rfl
  simpa [Ends, hother, hpredecessors] using hends

/-- Every path from the snapshot block to a place that a search has followed has
passed a place where the search ended with a candidate, and the value asked for
is that of the candidate there. -/
theorem exists_end (hcode : ∀ address block, program.block? address = some block →
      ∀ insn ∈ block.instructions, insn.Lifted)
    (htable : program.FlaglessTable) {known : Visit → Prop} {found : List Expr}
    (hfollowed : Followed program snapshot known (fun _ => False) found)
    (hpath : program.HoldingPath world machine snapshot insns address) {e : Expr}
    (he : e.Within .flagless) (hknown : known (address, e)) :
    ∃ candidate ∈ found, ∃ passed last,
      program.HoldingPath world machine snapshot passed last ∧
        (passed = [] ∨ candidate.hasRegisters = false) ∧
        candidate.eval ((machine.runRegisters world passed).valuation world) =
          e.eval ((machine.runRegisters world insns).valuation world) := by
  induction hpath generalizing e with
  | start hholds =>
      have hends : program.Ends snapshot (snapshot, e) := by simp [Ends]
      exact ⟨_, hfollowed.ends _ hknown hends, [], snapshot, .start hholds, Or.inl rfl,
        (eval_settle htable hholds he).2⟩
  | @step insns previous next block hpath hblock hnext hother hholds ih =>
      obtain ⟨hflagless, hsettle⟩ := eval_settle htable hholds he
      have hbefore := mem_visitsBefore hblock hnext (program.settle (next, e)).1
      by_cases hends : program.Ends snapshot (next, e)
      · refine ⟨_, hfollowed.ends _ hknown hends, _, next,
          .step hpath hblock hnext hother hholds, Or.inr ?_, hsettle⟩
        exact hasRegisters_of_settle (settled_of_ends hends hother hbefore)
      · have hseen := (hfollowed.goes _ hknown hends _ hbefore).resolve_right id
        have hlifted := hcode _ _ hblock
        obtain ⟨candidate, hfound, passed, last, hpassed, hclosed, hvalue⟩ :=
          ih (flagless_rewind hlifted hflagless) hseen
        refine ⟨candidate, hfound, passed, last, hpassed, hclosed, ?_⟩
        rw [hvalue, eval_rewind world hlifted hflagless, ← MachineState.runRegisters_append,
          hsettle]

/-- Without registers, an expression keeps its value. -/
theorem eval_of_no_registers (hinsns : ∀ insn ∈ insns, insn.KeepsSpecial) {e : Expr}
    (he : e.hasRegisters = false) :
    e.eval ((machine.runRegisters world insns).valuation world) =
      e.eval (machine.valuation world) := by
  apply Expr.eval_congr
  · intro symbol hsymbol
    have hopen : symbol.isRegister = false := by
      have hall := List.any_eq_false.mp he symbol (Expr.references_iff_mem_symbols.mp hsymbol)
      simpa using hall
    exact MachineState.symbol_runRegisters
      (fun insn hinsn => (hinsns insn hinsn).get?_eq_none hopen) machine
  · intro _
    exact ⟨congrArg Memory.load (MachineState.memory_runRegisters machine), rfl⟩
  · rfl

/-- If a backtrace finds anything, then on every path from the snapshot block to
the instruction one of the candidates has, in the state at the start, the value
that the register has just before the instruction. -/
theorem backtrace_covers
    (hcode : ∀ block ∈ program.blocks.values, ∀ insn ∈ block.instructions, insn.KeepsSpecial)
    (htable : program.FlaglessTable) {site : Address} {block : Block} {index : Nat}
    (hsite : program.locate? site = some (block, index)) {reg : Reg}
    (hresult : program.backtrace (.reg reg) site snapshot ≠ [])
    (hpath : program.HoldingPath world machine snapshot insns block.address) :
    ∃ candidate ∈ program.backtrace (.reg reg) site snapshot,
      candidate.eval (machine.valuation world) =
        (machine.runRegisters world (insns ++ block.instructions.take index)).symbol
          (.reg reg) := by
  have hkept : ∀ address block, program.block? address = some block →
      ∀ insn ∈ block.instructions, insn.KeepsSpecial :=
    fun _ block hblock => hcode block (SortedMap.mem_values_of_get? hblock)
  have hstart : ∀ insn ∈ block.instructions.take index, insn.Lifted := fun insn hinsn =>
    (hcode block (mem_values_of_locate? hsite) insn (List.mem_of_mem_take hinsn)).lifted
  have hreg : (Expr.sym (.reg reg)).Within .flagless := fun _ => Symbol.noConfusion
  obtain ⟨known, hknown, hfollowed⟩ := backtrace_followed hsite hresult
  obtain ⟨candidate, hfound, passed, _, hpassed, hclosed, hvalue⟩ :=
    exists_end (fun _ _ hblock insn hinsn => (hkept _ _ hblock insn hinsn).lifted) htable
      hfollowed hpath (flagless_rewind hstart hreg) hknown
  refine ⟨candidate, hfound, ?_⟩
  calc candidate.eval (machine.valuation world)
      = candidate.eval ((machine.runRegisters world passed).valuation world) := by
        rcases hclosed with rfl | hnone
        · rfl
        · exact (eval_of_no_registers (hpassed.forall_mem hkept) hnone).symm
    _ = (Expr.sym (.reg reg)).eval
          (((machine.runRegisters world insns).runRegisters world
            (block.instructions.take index)).valuation world) := by
        rw [hvalue, eval_rewind world hstart hreg]
    _ = (machine.runRegisters world (insns ++ block.instructions.take index)).symbol
          (.reg reg) := by
        rw [← MachineState.runRegisters_append]
        rfl

end Program

/-! ## A table entry on one of two ways -/

namespace TwoWays

open CWorld (silent)

def first : Block :=
  { address := 16
    instructions := [.ofMnemonic 16 "mov" [.ofReg .eax, .ofReg .ebx]]
    successors := [32, 48] }

def added : Block :=
  { address := 32
    instructions := [.ofMnemonic 32 "add" [.ofReg .eax, .imm 4]]
    successors := [64] }

def replaced : Block :=
  { address := 48
    instructions := [.ofMnemonic 48 "mov" [.ofReg .eax, .ofReg .ecx]]
    successors := [64] }

def join : Block :=
  { address := 64
    instructions :=
      [.ofMnemonic 64 "mov" [.ofReg .edx, .imm 1],
        .ofMnemonic 69 "mov" [.ofReg .ecx, .ofReg .eax]] }

/-- The table says that `ecx` points eight bytes into the frame of the caller. -/
def program : Program :=
  ([first, added, replaced, join].foldl Program.insertBlock {}).setBinding 48
    (SortedMap.empty.insert (.reg .ecx) (.frame 8))

theorem backtrace_eq :
    program.backtrace (.reg .eax) 69 16 = [.frame 8, .add (.reg .ebx) (.const 4)] := by
  rw [Program.backtrace_eq_backtraceListed]
  decide +kernel

theorem keepsSpecial :
    ∀ block ∈ program.blocks.values, ∀ insn ∈ block.instructions, insn.KeepsSpecial := by
  have hunwritten : ∀ block ∈ program.blocks.values, ∀ insn ∈ block.instructions,
      ∀ write ∈ insn.effect, write.1.isSpecial = false := by decide +kernel
  have hlifted : ∀ block ∈ [first, added, replaced, join], ∀ insn ∈ block.instructions,
      insn.Lifted := by
    simp only [first, added, replaced, join, List.forall_mem_cons]
    exact ⟨⟨rfl, List.forall_mem_nil _⟩, ⟨rfl, List.forall_mem_nil _⟩, ⟨rfl, List.forall_mem_nil _⟩,
      ⟨rfl, rfl, List.forall_mem_nil _⟩, List.forall_mem_nil _⟩
  exact fun block hblock insn hinsn =>
    ⟨hlifted block hblock insn hinsn, hunwritten block hblock insn hinsn⟩

theorem entry_eq {address : Address} {binding : Binding}
    (hbinding : program.bindings.get? address = some binding) :
    address = 48 ∧ binding = SortedMap.empty.insert (.reg .ecx) (.frame 8) :=
  Prod.mk.inj (List.mem_singleton.mp (SortedMap.mem_of_get? hbinding))

theorem value_eq {symbol : Symbol} {value : Expr}
    (hvalue : (SortedMap.empty.insert (.reg .ecx) (.frame 8) : Binding).get? symbol = some value) :
    symbol = .reg .ecx ∧ value = .frame 8 :=
  Prod.mk.inj (List.mem_singleton.mp (SortedMap.mem_of_get? hvalue))

theorem flaglessTable : program.FlaglessTable := by
  intro address binding hbinding symbol value hvalue
  obtain ⟨_, rfl⟩ := entry_eq hbinding
  obtain ⟨_, rfl⟩ := value_eq hvalue
  exact Expr.flagless_of_traced (Expr.traced_of_frameOffset (Expr.frameOffset?_frame 8))

def machine : MachineState :=
  { symbol := fun
      | .framePtr => 0x1000
      | .reg .ecx => 0x1008
      | _ => 0
    memory := fun _ => 0 }

/-- Along the block for which the table speaks. -/
theorem holdingPath :
    program.HoldingPath silent.toWorld machine 16 (first.instructions ++ replaced.instructions)
      64 := by
  have hstart : program.HoldingPath silent.toWorld machine 16 [] 16 :=
    .start fun binding hbinding => absurd (entry_eq hbinding).1 (by decide)
  have hentered : program.HoldingPath silent.toWorld machine 16 ([] ++ first.instructions) 48 := by
    apply Program.HoldingPath.step hstart (show _ = some first from rfl) (by decide)
      (show (48 : Address) ≠ 16 by decide)
    intro binding hbinding symbol value hvalue
    obtain ⟨_, rfl⟩ := entry_eq hbinding
    obtain ⟨rfl, rfl⟩ := value_eq hvalue
    decide +kernel
  apply Program.HoldingPath.step hentered (show _ = some replaced from rfl) (by decide)
    (show (64 : Address) ≠ 16 by decide)
  exact fun binding hbinding => absurd (entry_eq hbinding).1 (by decide)

/-- Of the two candidates for `eax`, the one from the table is right on the way
through `48`. -/
theorem backtrace_covers_table :
    program.backtrace (.reg .eax) 69 16 = [.frame 8, .add (.reg .ebx) (.const 4)] ∧
      ∃ candidate ∈ program.backtrace (.reg .eax) 69 16,
        candidate.eval (machine.valuation silent.toWorld) = 0x1008 := by
  have hsite : program.locate? 69 = some (join, 1) := rfl
  have hresult : program.backtrace (.reg .eax) 69 16 ≠ [] := by
    rw [backtrace_eq]
    exact List.cons_ne_nil _ _
  obtain ⟨candidate, hfound, hvalue⟩ :=
    Program.backtrace_covers keepsSpecial flaglessTable hsite hresult holdingPath
  refine ⟨backtrace_eq, candidate, hfound, hvalue.trans ?_⟩
  decide +kernel

end TwoWays

end Uncompile
