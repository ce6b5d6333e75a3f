import Uncompile.Dataflow.Dependencies
import Uncompile.Proofs.Machine.LiftForm

/-!
# Executions of a function

What an execution shows to the outside: its stores and outputs, the outcome of
its conditional branches and loops, the targets of its indirect jumps and the
return register at every return. A block is left at the first branch or loop that
is taken, at a jump or a return, wherever it stands in the block, and otherwise at
its end; what has been shown so far then decides where control goes next.

An instruction that does not read a symbol shows the same from two states that
differ only in this symbol, and leaves two such states.
-/

namespace Uncompile

/-- What an instruction shows to the outside. -/
inductive Event where
  | store (address : Word) (size : Nat) (value : Word)
  | output (port : Word) (size : Nat) (value : Word)
  | branch (taken : Bool)
  | jump (target : Word)
  | ret (value : Word)
  deriving DecidableEq

/-- What one write of an effect shows: nothing, if it stays in the processor. -/
def Location.event? (location : Location) (v : Valuation) (value : Word) : Option Event :=
  match location with
  | .sym _ => none
  | .mem ptr size => some (.store (ptr.eval v) size value)
  | .port p size => some (.output (p.eval v) size value)

/-- Whether control leaves a block at an instruction. A loop tests its counter after
it has counted it down. -/
def Instruction.leaves (insn : Instruction) (v : Valuation) : Bool :=
  match insn.kind with
  | .jcc cc => cc.toExpr.eval v != 0
  | .loop cc => v.symbol (.reg .ecx) - 1 != 0 && cc.all fun c => c.toExpr.eval v != 0
  | .jmp | .ret => true
  | _ => false

/-- Whether control can leave a block at an instruction. -/
def Instruction.canLeave (insn : Instruction) : Bool :=
  match insn.kind with
  | .jcc _ | .loop _ | .jmp | .ret => true
  | _ => false

theorem Instruction.canLeave_of_leaves {insn : Instruction} {v : Valuation}
    (hleaves : insn.leaves v) : insn.canLeave := by
  unfold leaves at hleaves
  unfold canLeave
  cases hkind : insn.kind <;> simp_all

/-- What an instruction shows of where control goes. -/
def Instruction.controlEvents (insn : Instruction) (v : Valuation) (returnRegister : Reg) :
    List Event :=
  match insn.kind with
  | .jcc _ | .loop _ => [.branch (insn.leaves v)]
  | .jmp =>
    match insn.operands with
    | [] => []
    | operand :: _ => if operand.isImm then [] else [.jump (operand.value.eval v)]
  | .ret => [.ret (v.symbol (.reg returnRegister))]
  | _ => []

namespace MachineState

/-- What an instruction shows when it is executed. -/
def events (world : World) (returnRegister : Reg) (machine : MachineState) (insn : Instruction) :
    List Event :=
  insn.effect.filterMap (fun entry =>
    entry.1.event? (machine.valuation world) (entry.2.eval (machine.valuation world))) ++
    insn.controlEvents (machine.valuation world) returnRegister

/-- What the instructions of a block show when they are executed one after the other
until control leaves the block, and the state it is left in. -/
def traverse (world : World) (returnRegister : Reg) (machine : MachineState) :
    List Instruction → List Event × MachineState
  | [] => ([], machine)
  | insn :: rest =>
    let shown := machine.events world returnRegister insn
    let next := machine.exec world insn.effect
    if insn.leaves (machine.valuation world) then (shown, next)
    else
      let (later, last) := next.traverse world returnRegister rest
      (shown ++ later, last)

end MachineState

/-- The blocks that an execution has run, with what each of them has shown. -/
abbrev History := List (Address × List Event)

/-- Where control goes after what has been shown so far. -/
abbrev Control := History → Option Address

/-- At most `steps` more blocks of an execution that has come to an address. It
ends where there is no block and where control leaves a block's successors. -/
def execution (fetch : Address → Option Block) (world : World) (returnRegister : Reg)
    (control : Control) : Nat → History → Address → MachineState → History
  | 0, history, _, _ => history
  | steps + 1, history, address, machine =>
    match fetch address with
    | none => history
    | some block =>
      let (events, left) := machine.traverse world returnRegister block.instructions
      let shown := history ++ [(address, events)]
      match control shown with
      | none => shown
      | some next =>
        if next ∈ block.successors then
          execution fetch world returnRegister control steps shown next left
        else shown

/-- An instruction that neither calls nor is left to inline assembly as a whole:
its effect says all it does. -/
structure Instruction.Modeled (insn : Instruction) : Prop where
  lifted : insn.Lifted
  noCall : insn.kind ≠ .call
  known : insn.kind ≠ .unmodeled

/-! ## What instructions read -/

theorem AnalysisContext.value_subset_effectReads {insn : Instruction} {entry : Location × Expr}
    (hentry : entry ∈ insn.effect) : entry.2.symbols ⊆ effectReads insn := by
  intro symbol hsymbol
  exact List.mem_flatMap.mpr ⟨entry, hentry, List.mem_append_left _ hsymbol⟩

theorem AnalysisContext.address_subset_effectReads {insn : Instruction} {entry : Location × Expr}
    (hentry : entry ∈ insn.effect) {address : Expr} (haddress : entry.1.address? = some address) :
    address.symbols ⊆ effectReads insn := by
  intro symbol hsymbol
  refine List.mem_flatMap.mpr ⟨entry, hentry, List.mem_append_right _ ?_⟩
  rw [haddress]
  exact hsymbol

/-- What a lifted loop counts down is among what it reads. -/
theorem Instruction.Lifted.counter_mem_effectReads {insn : Instruction} (hlifted : insn.Lifted)
    {cc : Option Condition} (hkind : insn.kind = .loop cc) :
    .reg .ecx ∈ AnalysisContext.effectReads insn := by
  have hentry : (.reg .ecx, Lift.offset (.reg .ecx) (-1)) ∈ insn.effect := by
    rw [hlifted.effect_eq, opcode_of_loop hkind]
    exact List.mem_singleton_self _
  exact AnalysisContext.value_subset_effectReads hentry (by decide)

/-! ## States that agree up to one symbol -/

/-- Two states differ in one symbol at most. -/
structure AgreeExcept (symbol : Symbol) (left right : MachineState) : Prop where
  memory : left.memory = right.memory
  symbols : ∀ other, other ≠ symbol → left.symbol other = right.symbol other

namespace AgreeExcept

open AnalysisContext

variable {symbol : Symbol} {left right : MachineState}

theorem eq_of_symbol (h : AgreeExcept symbol left right)
    (hsymbol : left.symbol symbol = right.symbol symbol) : left = right := by
  obtain ⟨leftSymbol, leftMemory⟩ := left
  obtain ⟨rightSymbol, rightMemory⟩ := right
  obtain rfl : leftMemory = rightMemory := h.memory
  congr 1
  funext other
  by_cases hother : other = symbol
  · rw [hother]
    exact hsymbol
  · exact h.symbols other hother

/-- An expression that does not mention the symbol has one value. -/
theorem eval_eq (h : AgreeExcept symbol left right) (world : World) {e : Expr}
    (hunread : symbol ∉ e.symbols) :
    e.eval (left.valuation world) = e.eval (right.valuation world) := by
  apply Expr.eval_congr
  · intro read hread
    apply h.symbols
    rintro rfl
    exact hunread (Expr.references_iff_mem_symbols.mp hread)
  · exact fun _ => ⟨congrArg Memory.load h.memory, rfl⟩
  · rfl

/-- The values and addresses of an effect that does not read the symbol. -/
theorem entry_eq (h : AgreeExcept symbol left right) (world : World) {insn : Instruction}
    (hunread : symbol ∉ effectReads insn) {entry : Location × Expr} (hentry : entry ∈ insn.effect) :
    entry.2.eval (left.valuation world) = entry.2.eval (right.valuation world) ∧
      ∀ address, entry.1.address? = some address →
        address.eval (left.valuation world) = address.eval (right.valuation world) :=
  ⟨h.eval_eq world fun hread => hunread (value_subset_effectReads hentry hread),
    fun _ haddress => h.eval_eq world fun hread =>
      hunread (address_subset_effectReads hentry haddress hread)⟩

/-- What does not read the symbol to decide where control goes decides the same. -/
theorem leaves_eq (h : AgreeExcept symbol left right) (world : World)
    (context : AnalysisContext) {insn : Instruction} (hmodeled : insn.Modeled)
    (heffect : symbol ∉ effectReads insn) (hcontrol : symbol ∉ context.controlReads insn) :
    insn.leaves (left.valuation world) = insn.leaves (right.valuation world) := by
  unfold Instruction.leaves
  unfold controlReads at hcontrol
  cases hkind : insn.kind with
  | jcc cc =>
      rw [hkind] at hcontrol
      simp only [h.eval_eq world hcontrol]
  | loop cc =>
      have hcounter : left.symbol (.reg .ecx) = right.symbol (.reg .ecx) := by
        apply h.symbols
        rintro rfl
        exact heffect (hmodeled.lifted.counter_mem_effectReads hkind)
      rw [hkind] at hcontrol
      cases cc with
      | none => simp only [MachineState.valuation, hcounter, Option.all_none]
      | some c =>
          have hcondition := h.eval_eq world hcontrol
          simp only [Option.all_some, hcondition]
          simp only [MachineState.valuation, hcounter]
  | _ => rfl

theorem controlEvents_eq (h : AgreeExcept symbol left right) (world : World)
    (context : AnalysisContext) {insn : Instruction} (hmodeled : insn.Modeled)
    (heffect : symbol ∉ effectReads insn) (hcontrol : symbol ∉ context.controlReads insn) :
    insn.controlEvents (left.valuation world) context.config.returnRegister =
      insn.controlEvents (right.valuation world) context.config.returnRegister := by
  have hleaves := h.leaves_eq world context hmodeled heffect hcontrol
  unfold Instruction.controlEvents
  unfold controlReads at hcontrol
  cases hkind : insn.kind with
  | jcc cc => simp only [hleaves]
  | loop cc => simp only [hleaves]
  | jmp =>
      rw [hkind] at hcontrol
      cases hoperands : insn.operands with
      | nil => rfl
      | cons operand rest =>
          simp only [hoperands] at hcontrol ⊢
          split
          · rfl
          · rename_i himm
            rw [if_neg himm] at hcontrol
            rw [h.eval_eq world hcontrol]
  | ret =>
      rw [hkind] at hcontrol
      have hvalue := h.symbols _ (Ne.symm (List.ne_of_not_mem_cons hcontrol))
      simp only [MachineState.valuation, hvalue]
  | _ => rfl

theorem events_eq (h : AgreeExcept symbol left right) (world : World)
    (context : AnalysisContext) {insn : Instruction} (hmodeled : insn.Modeled)
    (hunread : symbol ∉ effectReads insn ++ context.controlReads insn) :
    left.events world context.config.returnRegister insn =
      right.events world context.config.returnRegister insn := by
  rw [List.mem_append, not_or] at hunread
  have hwrites : ∀ entry ∈ insn.effect,
      entry.1.event? (left.valuation world) (entry.2.eval (left.valuation world)) =
        entry.1.event? (right.valuation world) (entry.2.eval (right.valuation world)) := by
    intro entry hentry
    obtain ⟨hvalue, haddress⟩ := h.entry_eq world hunread.1 hentry
    rw [hvalue]
    cases hlocation : entry.1 with
    | sym target => rfl
    | mem ptr size =>
        rw [hlocation] at haddress
        simp only [Location.event?, haddress ptr rfl]
    | port p size =>
        rw [hlocation] at haddress
        simp only [Location.event?, haddress p rfl]
  rw [MachineState.events, List.filterMap_congr hwrites,
    h.controlEvents_eq world context hmodeled hunread.1 hunread.2]
  rfl

/-- A write whose value and address are the same before two states stores the
same. -/
theorem memory_write {before before' machine machine' : MachineState} {world : World}
    {entry : Location × Expr}
    (hvalue : entry.2.eval (before.valuation world) = entry.2.eval (before'.valuation world))
    (haddress : ∀ address, entry.1.address? = some address →
      address.eval (before.valuation world) = address.eval (before'.valuation world))
    (hmemory : machine.memory = machine'.memory) :
    (MachineState.write world before machine entry).memory =
      (MachineState.write world before' machine' entry).memory := by
  obtain ⟨location, value⟩ := entry
  cases location with
  | sym target => exact hmemory
  | mem ptr size =>
      have hptr := haddress ptr rfl
      simp only [MachineState.write, hvalue, hptr, hmemory]
  | port p size => exact hmemory

theorem memory_foldl_write {before before' : MachineState} {world : World} {effect : Effect}
    (hentries : ∀ entry ∈ effect,
      entry.2.eval (before.valuation world) = entry.2.eval (before'.valuation world) ∧
        ∀ address, entry.1.address? = some address →
          address.eval (before.valuation world) = address.eval (before'.valuation world))
    {machine machine' : MachineState} (hmemory : machine.memory = machine'.memory) :
    (effect.foldl (MachineState.write world before) machine).memory =
      (effect.foldl (MachineState.write world before') machine').memory := by
  induction effect generalizing machine machine' with
  | nil => exact hmemory
  | cons entry rest ih =>
      obtain ⟨hvalue, haddress⟩ := hentries entry List.mem_cons_self
      apply ih
      · intro other hother
        exact hentries other (List.mem_cons_of_mem entry hother)
      · exact memory_write hvalue haddress hmemory

/-- An effect that does not read the symbol gives every symbol it binds one
value. -/
theorem symbol_exec_eq (h : AgreeExcept symbol left right) (world : World) {insn : Instruction}
    (hunread : symbol ∉ effectReads insn) {other : Symbol}
    (hother : other ≠ symbol ∨ (insn.effect.toBinding.get? other).isSome) :
    (left.exec world insn.effect).symbol other = (right.exec world insn.effect).symbol other := by
  rw [MachineState.symbol_exec, MachineState.symbol_exec]
  cases hvalue : insn.effect.toBinding.get? other with
  | none =>
      have hne : other ≠ symbol := by
        apply hother.resolve_right
        simp [hvalue]
      exact h.symbols other hne
  | some value => exact (h.entry_eq world hunread (Effect.mem_of_get?_toBinding hvalue)).1

theorem exec (h : AgreeExcept symbol left right) (world : World) {insn : Instruction}
    (hunread : symbol ∉ effectReads insn) :
    AgreeExcept symbol (left.exec world insn.effect) (right.exec world insn.effect) where
  memory := memory_foldl_write (fun _ hentry => h.entry_eq world hunread hentry) h.memory
  symbols _ hother := h.symbol_exec_eq world hunread (Or.inl hother)

end AgreeExcept

end Uncompile
