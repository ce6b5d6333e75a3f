import Uncompile.Program.Backtrace
import Uncompile.Proofs.Expr.Reduction
import Uncompile.Proofs.Machine.LiftForm

/-!
# Carrying expressions backwards

Along a path only the registers are followed: memory stays as it was. An
expression carried backwards through lifted instructions has, in the state before
them, the value that the given expression has after them.
-/

namespace Uncompile

/-! ## Traced expressions -/

/-- What is carried backwards: expressions over operands and the stack pointer at
entry, with neither equalities nor logical operators. -/
def Vocabulary.traced : Vocabulary where
  constant _ := True
  symbol s := s.isOperand ∨ s = .framePtr
  memory := True
  operator op := (op.isLogical || op.isEquality) = false
  constant_word _ := trivial
  constant_mask _ _ := trivial
  operator_add := rfl
  operator_sub := rfl
  operator_mul := rfl
  operator_negate {op inverse} hinverse hop := by
    cases op <;> simp only [BinOp.negate?, Option.some.injEq, reduceCtorEq] at hinverse <;>
      subst hinverse <;> first | rfl | exact absurd hop (by decide)
  operator_swapped {op} hop := by
    cases op <;> simp_all [BinOp.swapped, BinOp.isLogical, BinOp.isEquality]
  operator_merged {op other merged} hmerged _ := by
    rcases Expr.mergedOperator?_eq_some hmerged with
      ⟨rfl, rfl, rfl⟩ | ⟨rfl, rfl, rfl⟩ | ⟨rfl, rfl, rfl⟩ | ⟨rfl, rfl, rfl⟩ <;> rfl

/-- The same operators over all symbols but flags, as the values of a binding table
can have them. -/
def Vocabulary.flagless : Vocabulary :=
  { Vocabulary.traced with symbol := fun s => ∀ f, s ≠ .flag f }

/-- The valuation with all flags clear. -/
def Valuation.clearFlags (v : Valuation) : Valuation :=
  { v with symbol := fun
      | .flag _ => 0
      | symbol => v.symbol symbol }

namespace Expr

theorem regular_of_flagless {e : Expr} (he : e.Within .flagless) : e.Regular := by
  induction e with
  | const value => trivial
  | sym symbol => trivial
  | mem ptr size ih => exact ih he.2
  | port p size ih => exact ih he.2
  | unary op arg ih => exact ih he
  | binary op lhs rhs ihl ihr =>
      obtain ⟨hop, hlhs, hrhs⟩ := he
      obtain ⟨hlogical, hequality⟩ := Bool.or_eq_false_iff.mp hop
      refine ⟨fun h => ?_, fun h => ?_, ihl hlhs, ihr hrhs⟩
      · exact absurd (hequality ▸ h) Bool.false_ne_true
      · exact absurd (hlogical ▸ h) Bool.false_ne_true

theorem Arithmetic.traced {e : Expr} (he : e.Arithmetic) : e.Within .traced := by
  obtain ⟨hoperands, hfree⟩ := he
  induction e with
  | const value => trivial
  | sym symbol => exact Or.inl hoperands
  | mem ptr size ih => exact ⟨trivial, ih hoperands.2 hfree⟩
  | port p size ih => exact ⟨trivial, ih hoperands.2 hfree⟩
  | unary op arg ih => exact ih hoperands hfree
  | binary op lhs rhs ihl ihr =>
      obtain ⟨hop, hlhs, hrhs⟩ := hoperands
      simp only [Expr.equalityFree, Bool.and_eq_true, Bool.not_eq_true'] at hfree
      exact ⟨Bool.or_eq_false_iff.mpr ⟨hop, hfree.1.1⟩, ihl hlhs hfree.1.2, ihr hrhs hfree.2⟩

theorem traced_of_frameOffset {e : Expr} {offset : Int} (hoffset : e.frameOffset? = some offset) :
    e.Within .traced := by
  rcases frameOffset?_eq_some hoffset with ⟨rfl, rfl⟩ | rfl | rfl | ⟨k, rfl, rfl⟩
  · exact Or.inr rfl
  · exact ⟨rfl, Or.inr rfl, trivial⟩
  · exact ⟨rfl, trivial, Or.inr rfl⟩
  · exact ⟨rfl, Or.inr rfl, trivial⟩

theorem flagless_of_traced {e : Expr} (he : e.Within .traced) : e.Within .flagless := by
  induction e with
  | const value => trivial
  | sym symbol =>
      rintro f rfl
      exact he.elim Bool.false_ne_true Symbol.noConfusion
  | mem ptr size ih => exact ⟨trivial, ih he.2⟩
  | port p size ih => exact ⟨trivial, ih he.2⟩
  | unary op arg ih => exact ih he
  | binary op lhs rhs ihl ihr => exact ⟨he.1, ihl he.2.1, ihr he.2.2⟩

/-- An expression that mentions no flag does not depend on them. -/
theorem eval_clearFlags (v : Valuation) {e : Expr}
    (hflags : ∀ f, e.references (.flag f) = false) : e.eval v.clearFlags = e.eval v := by
  apply eval_congr
  · intro symbol hsymbol
    cases symbol with
    | flag f => exact absurd (hflags f ▸ hsymbol) Bool.false_ne_true
    | _ => rfl
  · exact fun _ => ⟨rfl, rfl⟩
  · rfl

/-- If no flag is mentioned, reduction keeps the value also where flags are no bits. -/
theorem eval_reduce_of_no_flags (v : Valuation) {e : Expr}
    (hflags : ∀ f, e.references (.flag f) = false) (he : e.Regular) :
    e.reduce.eval v = e.eval v := by
  have hreduced : ∀ f, e.reduce.references (.flag f) = false := fun f =>
    Bool.eq_false_iff.mpr fun h =>
      Bool.false_ne_true (hflags f ▸ references_of_references_reduce h)
  have hbits : v.clearFlags.FlagBits := fun _ => Or.inl rfl
  rw [← eval_clearFlags v hreduced, eval_reduce_of_regular hbits he, eval_clearFlags v hflags]

theorem eval_reduce_of_flagless {v : Valuation} {e : Expr} (he : e.Within .flagless) :
    e.reduce.eval v = e.eval v := by
  have hflags : ∀ f, e.references (.flag f) = false := fun f =>
    Bool.eq_false_iff.mpr fun h => symbol_of_within he _ h f rfl
  exact eval_reduce_of_no_flags v hflags (regular_of_flagless he)

theorem eval_reduce_of_traced {v : Valuation} {e : Expr} (he : e.Within .traced) :
    e.reduce.eval v = e.eval v :=
  eval_reduce_of_flagless (flagless_of_traced he)

end Expr

/-! ## Registers along a path -/

namespace MachineState

/-- Executes what an effect does to the registers. -/
def execRegisters (world : World) (machine : MachineState) (effect : Effect) : MachineState :=
  { machine.exec world effect with memory := machine.memory }

/-- Executes what instructions do to the registers, one after the other. -/
def runRegisters (world : World) (machine : MachineState) : List Instruction → MachineState
  | [] => machine
  | insn :: rest => (machine.execRegisters world insn.effect).runRegisters world rest

/-- The state that remembers its stack pointer as the one at entry. -/
def atEntry (machine : MachineState) : MachineState :=
  { machine with symbol := fun
      | .framePtr => machine.symbol (.reg .esp)
      | symbol => machine.symbol symbol }

theorem framePtr_atEntry (machine : MachineState) :
    machine.atEntry.symbol .framePtr = machine.atEntry.symbol (.reg .esp) := rfl

theorem memory_atEntry (machine : MachineState) : machine.atEntry.memory = machine.memory := rfl

theorem operand_atEntry (machine : MachineState) (symbol : Symbol) (hsymbol : symbol.isOperand) :
    machine.atEntry.symbol symbol = machine.symbol symbol := by
  cases symbol with
  | framePtr => exact absurd hsymbol Bool.false_ne_true
  | _ => rfl

theorem runRegisters_append (world : World) (machine : MachineState)
    (first second : List Instruction) :
    machine.runRegisters world (first ++ second) =
      (machine.runRegisters world first).runRegisters world second := by
  induction first generalizing machine with
  | nil => rfl
  | cons insn rest ih => exact ih _

theorem valuation_execRegisters (world : World) (machine : MachineState) (effect : Effect) :
    (machine.execRegisters world effect).valuation world =
      (machine.valuation world).bind effect.toBinding := by
  have hsymbols : (machine.exec world effect).symbol =
      ((machine.valuation world).bind effect.toBinding).symbol := by
    funext symbol
    rw [symbol_exec]
    cases hvalue : effect.toBinding.get? symbol with
    | none =>
        rw [Valuation.bind_symbol_of_none hvalue]
        rfl
    | some value =>
        rw [Valuation.bind_symbol_of_some hvalue]
        rfl
  simp only [valuation, execRegisters, hsymbols]
  rfl

end MachineState

/-! ## Lifted instructions -/

namespace Instruction.Lifted

variable {insn : Instruction}

/-- A lifted instruction binds symbols of the processor to values over operands. -/
theorem registerEffect_form (hlifted : insn.Lifted) {symbol : Symbol} {value : Expr}
    (hvalue : insn.registerEffect.get? symbol = some value) :
    symbol.onProcessor ∧ value.Within .operands ∧ ValueForm symbol value := by
  have hmem := Effect.mem_of_get?_toBinding hvalue
  by_cases hopcode : insn.opcode = .portOut
  · -- output to a port binds nothing
    exfalso
    rw [hlifted.effect_eq, hopcode] at hmem
    match insn.operands, hmem with
    | [], hmem | [_], hmem | _ :: _ :: _ :: _, hmem => exact List.not_mem_nil hmem
    | [_, _], hmem => cases List.mem_singleton.mp hmem
  · cases hlifted.writeForm hopcode _ hmem with
    | symbol hsymbol hoperands hform => exact ⟨hsymbol, hoperands, hform⟩

/-- What is not on the processor is not bound. -/
theorem get?_of_offProcessor (hlifted : insn.Lifted) {symbol : Symbol}
    (hoff : symbol.onProcessor = false) : insn.registerEffect.get? symbol = none := by
  by_contra hbound
  obtain ⟨value, hvalue⟩ := Option.ne_none_iff_exists'.mp hbound
  exact Bool.false_ne_true (hoff ▸ (hlifted.registerEffect_form hvalue).1)

theorem traced_registerEffect (hlifted : insn.Lifted) {symbol : Symbol} {value : Expr}
    (hflag : ∀ f, symbol ≠ .flag f)
    (hvalue : insn.registerEffect.get? symbol = some value) : value.Within .traced := by
  obtain ⟨_, hoperands, hform⟩ := hlifted.registerEffect_form hvalue
  exact Expr.Arithmetic.traced ⟨hoperands, hform.register hflag⟩

end Instruction.Lifted

/-! ## Carrying backwards -/

theorem rewind_cons (insn : Instruction) (rest : List Instruction) (e : Expr) :
    rewind (insn :: rest) e = ((rewind rest e).bind insn.registerEffect).reduce := by
  simp only [rewind, List.reverse_cons, List.foldl_append, List.foldl_cons, List.foldl_nil]

theorem flagless_rewind {insns : List Instruction} (hlifted : ∀ insn ∈ insns, insn.Lifted)
    {e : Expr} (he : e.Within .flagless) : (rewind insns e).Within .flagless := by
  induction insns with
  | nil => exact he
  | cons insn rest ih =>
      obtain ⟨hinsn, hrest⟩ := List.forall_mem_cons.mp hlifted
      rw [rewind_cons]
      apply Expr.within_reduce
      apply Expr.within_bind (ih hrest)
      intro symbol value hsymbol hvalue
      exact Expr.flagless_of_traced
        (hinsn.traced_registerEffect (Expr.symbol_of_within (ih hrest) symbol hsymbol) hvalue)

/-- Before the instructions, the expression carried backwards has the value that
the given one has after them. -/
theorem eval_rewind (world : World) {insns : List Instruction}
    (hlifted : ∀ insn ∈ insns, insn.Lifted) {e : Expr} (he : e.Within .flagless)
    (machine : MachineState) :
    (rewind insns e).eval (machine.valuation world) =
      e.eval ((machine.runRegisters world insns).valuation world) := by
  induction insns generalizing machine with
  | nil => rfl
  | cons insn rest ih =>
      obtain ⟨hinsn, hrest⟩ := List.forall_mem_cons.mp hlifted
      have hflagless := flagless_rewind hrest he
      have hbound : ((rewind rest e).bind insn.registerEffect).Within .flagless :=
        Expr.within_bind hflagless fun symbol value hsymbol hvalue =>
          Expr.flagless_of_traced
            (hinsn.traced_registerEffect (Expr.symbol_of_within hflagless symbol hsymbol) hvalue)
      calc (rewind (insn :: rest) e).eval (machine.valuation world)
          = ((rewind rest e).bind insn.registerEffect).eval (machine.valuation world) := by
            rw [rewind_cons, Expr.eval_reduce_of_flagless hbound]
        _ = (rewind rest e).eval ((machine.execRegisters world insn.effect).valuation world) := by
            rw [Expr.eval_bind, MachineState.valuation_execRegisters]
            rfl
        _ = e.eval ((machine.runRegisters world (insn :: rest)).valuation world) := ih hrest _

namespace MachineState

variable {world : World} {insns : List Instruction}

theorem memory_runRegisters (machine : MachineState) :
    (machine.runRegisters world insns).memory = machine.memory := by
  induction insns generalizing machine with
  | nil => rfl
  | cons insn rest ih => exact ih _

/-- A symbol that no instruction binds keeps its value. -/
theorem symbol_runRegisters {symbol : Symbol}
    (hunbound : ∀ insn ∈ insns, insn.registerEffect.get? symbol = none) (machine : MachineState) :
    (machine.runRegisters world insns).symbol symbol = machine.symbol symbol := by
  induction insns generalizing machine with
  | nil => rfl
  | cons insn rest ih =>
      obtain ⟨hinsn, hrest⟩ := List.forall_mem_cons.mp hunbound
      have hstep : (machine.exec world insn.effect).symbol symbol = machine.symbol symbol := by
        rw [symbol_exec, show insn.effect.toBinding.get? symbol = none from hinsn]
        rfl
      exact (ih hrest _).trans hstep

/-- The stack pointer at entry is written by no instruction. -/
theorem framePtr_runRegisters (hlifted : ∀ insn ∈ insns, insn.Lifted) (machine : MachineState) :
    (machine.runRegisters world insns).symbol .framePtr = machine.symbol .framePtr :=
  symbol_runRegisters (fun insn hinsn => (hlifted insn hinsn).get?_of_offProcessor rfl) machine

/-- Registers depend on registers, the unknown value and memory only. -/
theorem runRegisters_congr (hlifted : ∀ insn ∈ insns, insn.Lifted) {left right : MachineState}
    (hmemory : left.memory = right.memory)
    (hsymbols : ∀ symbol, symbol.isOperand → left.symbol symbol = right.symbol symbol) :
    ∀ symbol, symbol.isOperand →
      (left.runRegisters world insns).symbol symbol =
        (right.runRegisters world insns).symbol symbol := by
  induction insns generalizing left right with
  | nil => exact hsymbols
  | cons insn rest ih =>
      obtain ⟨hinsn, hrest⟩ := List.forall_mem_cons.mp hlifted
      apply ih hrest
      · exact hmemory
      · intro symbol hsymbol
        show (left.exec world insn.effect).symbol symbol =
          (right.exec world insn.effect).symbol symbol
        rw [symbol_exec, symbol_exec]
        cases hvalue : insn.effect.toBinding.get? symbol with
        | none => exact hsymbols symbol hsymbol
        | some value =>
            obtain ⟨_, hoperands, _⟩ := hinsn.registerEffect_form hvalue
            apply Expr.eval_congr
            · intro read hread
              exact hsymbols read (Expr.symbol_of_within hoperands read hread)
            · exact fun _ => ⟨congrArg Memory.load hmemory, rfl⟩
            · rfl

end MachineState

end Uncompile
