import Mathlib.Logic.Function.Basic
import Uncompile.Machine.Instruction
import Uncompile.Proofs.Expr.Meaning

/-!
# The machine

A machine state gives every symbol a word and every address a byte. An effect is
executed at once: all its values and addresses are those of the state before.
-/

namespace Uncompile

abbrev Memory := Word → BitVec 8

namespace Memory

/-- The `size` bytes from an address on as a word, the lowest byte first. -/
def load (memory : Memory) (address : Word) : Nat → Word
  | 0 => 0
  | size + 1 => (memory address).setWidth 32 ||| load memory (address + 1) size <<< 8

/-- Writes the low `size` bytes of a word from an address on. -/
def store (memory : Memory) (address value : Word) : Nat → Memory
  | 0 => memory
  | size + 1 =>
    store (Function.update memory address (value.setWidth 8)) (address + 1) (value >>> 8) size

end Memory

/-- What stays the same while a block runs. -/
structure World where
  port : Word → Nat → Word
  byZero : BinOp → Word → Word

structure MachineState where
  symbol : Symbol → Word
  memory : Memory

/-- The writes of an effect that go outside the processor. -/
def Effect.stores (effect : Effect) : Effect :=
  effect.filter fun write => write.1.asSymbol?.isNone

/-- The last write to a symbol is the one that counts. -/
theorem Effect.get?_toBinding_concat (effect : Effect) (write : Location × Expr)
    (symbol : Symbol) :
    (Effect.toBinding (effect ++ [write])).get? symbol =
      if write.1 = .sym symbol then some write.2 else effect.toBinding.get? symbol := by
  obtain ⟨location, value⟩ := write
  cases location with
  | sym target =>
      simp only [Effect.toBinding, SortedMap.ofList, List.filterMap_append, List.foldl_append]
      simp only [List.filterMap_cons, Location.asSymbol?, Option.map_some, List.filterMap_nil,
        List.foldl_cons, List.foldl_nil, SortedMap.get?_insert, Location.sym.injEq]
  | mem ptr size => simp [Effect.toBinding, Location.asSymbol?]
  | port p size => simp [Effect.toBinding, Location.asSymbol?]

theorem Effect.mem_of_get?_toBinding {effect : Effect} {symbol : Symbol} {value : Expr}
    (hvalue : effect.toBinding.get? symbol = some value) : (.sym symbol, value) ∈ effect := by
  induction effect using List.reverseRecOn with
  | nil => simp [Effect.toBinding, SortedMap.ofList] at hvalue
  | append_singleton rest write ih =>
      rw [Effect.get?_toBinding_concat] at hvalue
      split at hvalue
      · rename_i hlocation
        cases hvalue
        rw [← hlocation]
        exact List.mem_append_right rest (List.mem_singleton_self write)
      · exact List.mem_append_left _ (ih hvalue)

namespace MachineState

def valuation (world : World) (machine : MachineState) : Valuation :=
  { symbol := machine.symbol
    mem := machine.memory.load
    port := world.port
    byZero := world.byZero }

/-- The flags of the state are bits. -/
def FlagBits (machine : MachineState) : Prop :=
  ∀ f, machine.symbol (.flag f) = 0 ∨ machine.symbol (.flag f) = 1

/-- One write of an effect, with its value and address taken in `before`. Output
to a port leaves registers and memory as they are. -/
def write (world : World) (before machine : MachineState) (entry : Location × Expr) :
    MachineState :=
  let value := entry.2.eval (before.valuation world)
  match entry.1 with
  | .sym symbol => { machine with symbol := Function.update machine.symbol symbol value }
  | .mem ptr size =>
    { machine with memory := machine.memory.store (ptr.eval (before.valuation world)) value size }
  | .port _ _ => machine

/-- Executes an effect. -/
def exec (world : World) (machine : MachineState) (effect : Effect) : MachineState :=
  effect.foldl (write world machine) machine

/-- Executes the effects of instructions one after the other. -/
def run (world : World) (machine : MachineState) : List Instruction → MachineState
  | [] => machine
  | insn :: rest => (machine.exec world insn.effect).run world rest

/-- The flags are bits in every state that a run passes through. -/
def BitsThroughout (world : World) (machine : MachineState) : List Instruction → Prop
  | [] => machine.FlagBits
  | insn :: rest => machine.FlagBits ∧ (machine.exec world insn.effect).BitsThroughout world rest

theorem run_append (world : World) (machine : MachineState) (first second : List Instruction) :
    machine.run world (first ++ second) = (machine.run world first).run world second := by
  induction first generalizing machine with
  | nil => rfl
  | cons insn rest ih => exact ih _

/-- A symbol gets the value that the effect binds it to, or keeps its own. -/
theorem symbol_exec (world : World) (machine : MachineState) (effect : Effect) (symbol : Symbol) :
    (machine.exec world effect).symbol symbol =
      ((effect.toBinding.get? symbol).map fun value => value.eval (machine.valuation world)).getD
        (machine.symbol symbol) := by
  induction effect using List.reverseRecOn with
  | nil => rfl
  | append_singleton rest entry ih =>
      obtain ⟨location, value⟩ := entry
      rw [exec, List.foldl_concat, Effect.get?_toBinding_concat]
      cases location with
      | sym target =>
          by_cases hsame : target = symbol
          · simp [write, hsame]
          · simp only [Location.sym.injEq, hsame, if_false]
            exact (Function.update_of_ne (Ne.symm hsame) _ _).trans ih
      | mem ptr size =>
          rw [if_neg (by simp)]
          exact ih
      | port p size =>
          rw [if_neg (by simp)]
          exact ih

/-- Only the stores of an effect change memory, and what they store does not
depend on each other. -/
theorem memory_foldl_write (world : World) (before : MachineState) (effect : Effect)
    {machine other : MachineState} (hmemory : machine.memory = other.memory) :
    (effect.foldl (write world before) machine).memory =
      (effect.stores.foldl (write world before) other).memory := by
  induction effect generalizing machine other with
  | nil => exact hmemory
  | cons entry rest ih =>
      obtain ⟨location, value⟩ := entry
      cases location with
      | sym symbol =>
          have hmove : (write world before machine (.sym symbol, value)).memory = other.memory :=
            hmemory
          exact ih hmove
      | mem ptr size =>
          apply ih
          simp only [write, hmemory]
      | port p size =>
          apply ih
          exact hmemory

theorem memory_exec (world : World) (machine : MachineState) (effect : Effect) :
    (machine.exec world effect).memory =
      (effect.stores.foldl (write world machine) machine).memory :=
  memory_foldl_write world machine effect rfl

theorem BitsThroughout.run {world : World} {machine : MachineState} {insns : List Instruction}
    (h : machine.BitsThroughout world insns) : (machine.run world insns).FlagBits := by
  induction insns generalizing machine with
  | nil => exact h
  | cons insn rest ih => exact ih h.2

end MachineState

end Uncompile
