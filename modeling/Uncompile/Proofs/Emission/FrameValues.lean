import Uncompile.Proofs.Emission.Demands
import Uncompile.Proofs.Expr.Normal

/-!
# Frame values in step with the machine

Some registers are computed from each other only, such as the stack pointer and the frame
register. While a block is lowered, their values at hand are expressions over the variables
of these registers and the stack pointer at entry, and they stand for what the machine has
in the registers. An instruction keeps this as long as no such value mentions a variable
that gets a new value under it, by a commit, a call or a loop. Registers that the frame
manages have no variables that could change, so for them it holds throughout.
-/

namespace Uncompile

/-- The symbols of some registers. -/
def Symbol.among (regs : List Reg) : Symbol → Bool
  | reg r => r ∈ regs
  | _ => false

/-! ## Registers computed from each other -/

/-- Values over some registers and the stack pointer at entry, in normal form. -/
structure Expr.FrameForm (kept : List Reg) (value : Expr) : Prop where
  steady : value.Steady (Symbol.among kept)
  flagless : value.Within .flagless
  normal : value.Normal

/-- Block states in which the values of the given registers are over each other. -/
structure BlockState.Follows (managed : Symbol → Bool) (kept : List Reg) (state : BlockState) :
    Prop extends state.Framed managed where
  form : ∀ r ∈ kept, ∀ value, state.live.get? (.reg r) = some value → value.FrameForm kept

/-- What a lifted instruction writes to registers has neither flags nor conditions. -/
theorem Instruction.Lifted.flagless_write {insn : Instruction} (hlifted : insn.Lifted) {r : Reg}
    {value : Expr} (hwrite : (.sym (.reg r), value) ∈ insn.effect) : value.Within .flagless := by
  cases hlifted.writeForm_symbol hwrite with
  | symbol _ hoperands hform =>
      exact Expr.flagless_of_traced
        (Expr.Arithmetic.traced ⟨hoperands, hform.register fun _ => Symbol.noConfusion⟩)

namespace BlockState.Follows

variable {managed : Symbol → Bool} {kept : List Reg} {state : BlockState}

/-- What a steady value reads has a value of the same form. -/
theorem form_of_references (h : state.Follows managed kept) {e : Expr}
    (he : e.Steady (Symbol.among kept)) {symbol : Symbol} {value : Expr}
    (hread : e.references symbol) (hvalue : state.live.get? symbol = some value) :
    value.FrameForm kept := by
  have hamong := he.reads symbol hread (h.processor symbol value hvalue)
  cases symbol with
  | reg r => exact h.form r (of_decide_eq_true hamong) value hvalue
  | _ => cases hamong

theorem flagless_bind (h : state.Follows managed kept) {e : Expr}
    (he : e.Steady (Symbol.among kept)) (hflagless : e.Within .flagless) :
    (e.bind state.live).Within .flagless :=
  Expr.within_bind hflagless fun _ _ hread hvalue => (h.form_of_references he hread hvalue).flagless

theorem form_eval (h : state.Follows managed kept) {e : Expr}
    (he : e.Steady (Symbol.among kept)) (hflagless : e.Within .flagless) :
    (state.eval e).FrameForm kept where
  steady := he.eval fun _ _ hread hvalue => (h.form_of_references he hread hvalue).steady
  flagless := Expr.within_reduce (h.flagless_bind he hflagless)
  normal := Expr.normal_reduce _

/-- A state with fewer values. -/
theorem mono (h : state.Follows managed kept) {state' : BlockState}
    (hframed : state'.Framed managed)
    (hsub : ∀ symbol value, state'.live.get? symbol = some value →
      state.live.get? symbol = some value) : state'.Follows managed kept where
  toFramed := hframed
  form r hr value hvalue := h.form r hr value (hsub _ _ hvalue)

/-- A symbol gets a value that another such state gives it. -/
theorem update (h : state.Follows managed kept) {read : BlockState}
    (hread : read.Follows managed kept) {target : Symbol} {e : Expr} {isManaged : Bool}
    (hframed : (state.update target (read.eval e) isManaged).Framed managed)
    (he : ∀ r ∈ kept, target = .reg r → e.Steady (Symbol.among kept) ∧ e.Within .flagless) :
    (state.update target (read.eval e) isManaged).Follows managed kept where
  toFramed := hframed
  form r hr found hfound := by
    rw [get?_live_update] at hfound
    split at hfound
    · rename_i hsame
      obtain ⟨hsteady, hflagless⟩ := he r hr hsame
      exact Option.some.inj hfound ▸ hread.form_eval hsteady hflagless
    · exact h.form r hr found hfound

/-- Instructions that compute the registers from each other keep this. -/
theorem evolves {insn : Instruction} (hlifted : insn.Lifted)
    (hmoves : insn.MovesFrame (Symbol.among kept)) {state' : BlockState}
    (h : state.Follows managed kept) (hevolves : Evolves managed insn.effect state state') :
    state'.Follows managed kept := by
  have hframed : ∀ {state'}, Evolves managed insn.effect state state' → state'.Framed managed :=
    fun hevolves => h.toFramed.evolves (fun _ _ => hlifted.symbol_write) hevolves
  induction hevolves with
  | refl => exact h
  | commit hbefore required force ih =>
      refine ih.mono (hframed (hbefore.commit required force)) fun symbol value hvalue => ?_
      rw [get?_live_commit] at hvalue
      split at hvalue
      · cases hvalue
      · exact hvalue
  | discard hbefore gone ih =>
      refine ih.mono (hframed (hbefore.discard gone)) fun symbol value hvalue => ?_
      rw [get?_live_discard] at hvalue
      split at hvalue
      · cases hvalue
      · exact hvalue
  | update hbefore hread hwrite ih ihread =>
      refine ih.update ihread (hframed (hbefore.update hread hwrite)) ?_
      rintro r hr rfl
      exact ⟨hmoves _ hwrite (.reg r) rfl (decide_eq_true hr), hlifted.flagless_write hwrite⟩

end BlockState.Follows

/-! ## Values that denote registers -/

theorem MachineState.symbol_execRegisters (world : World) (machine : MachineState)
    (effect : Effect) (symbol : Symbol) :
    (machine.execRegisters world effect).symbol symbol =
      ((effect.toBinding.get? symbol).map fun value => value.eval (machine.valuation world)).getD
        (machine.symbol symbol) :=
  machine.symbol_exec world effect symbol

theorem MachineState.symbol_execRegisters_of_none {world : World} {machine : MachineState}
    {effect : Effect} {symbol : Symbol} (hunbound : effect.toBinding.get? symbol = none) :
    (machine.execRegisters world effect).symbol symbol = machine.symbol symbol := by
  rw [symbol_execRegisters, hunbound]
  rfl

/-- The valuation in which the given registers, where they have no value at hand, are those
of the machine. -/
def Valuation.renew (v : Valuation) (kept : List Reg) (live : Binding) (machine : MachineState) :
    Valuation :=
  { v with
    symbol := fun symbol =>
      if Symbol.among kept symbol ∧ live.get? symbol = none then machine.symbol symbol
      else v.symbol symbol }

namespace Valuation

variable {v : Valuation} {kept : List Reg} {live : Binding} {machine : MachineState}

theorem renew_symbol {r : Reg} (hr : r ∈ kept) (hnone : live.get? (.reg r) = none) :
    (v.renew kept live machine).symbol (.reg r) = machine.symbol (.reg r) :=
  if_pos ⟨decide_eq_true hr, hnone⟩

theorem renew_symbol_of_offProcessor {symbol : Symbol} (hsymbol : symbol.onProcessor = false) :
    (v.renew kept live machine).symbol symbol = v.symbol symbol := by
  refine if_neg fun hnew => ?_
  cases symbol with
  | reg => cases hsymbol
  | _ => cases hnew.1

/-- A value that reads no register with another content means what it meant. -/
theorem eval_renew {value : Expr} (hsteady : value.Steady (Symbol.among kept))
    (hsame : ∀ r ∈ kept, value.references (.reg r) → live.get? (.reg r) = none →
      machine.symbol (.reg r) = v.symbol (.reg r)) :
    value.eval (v.renew kept live machine) = value.eval v := by
  apply Expr.eval_congr
  · intro read hread
    by_cases hnew : Symbol.among kept read ∧ live.get? read = none
    · cases read with
      | reg r =>
          have hr : r ∈ kept := of_decide_eq_true hnew.1
          rw [renew_symbol hr hnew.2, hsame r hr hread hnew.2]
      | _ => cases hnew.1
    · exact if_neg hnew
  · intro hmemory
    rw [hsteady.memoryless] at hmemory
    cases hmemory
  · rfl

end Valuation

/-- With the variables as in `v`, the values at hand of the given registers are those of the
machine. -/
structure Denotes (kept : List Reg) (live : Binding) (v : Valuation) (world : World)
    (machine : MachineState) : Prop where
  outside : ∀ symbol, symbol.onProcessor = false → v.symbol symbol = machine.symbol symbol
  byZero : v.byZero = (machine.valuation world).byZero
  value : ∀ r ∈ kept, (v.bind live).symbol (.reg r) = machine.symbol (.reg r)

namespace Denotes

variable {managed : Symbol → Bool} {kept : List Reg} {state state' : BlockState} {v : Valuation}
  {world : World} {machine machine' : MachineState}

/-- Values may be forgotten, and registers without a value may change, as long as no value
that stays mentions such a register. -/
theorem forget (h : Denotes kept state.live v world machine) (hstate : state.Follows managed kept)
    (hoffProcessor : ∀ symbol, symbol.onProcessor = false →
      machine'.symbol symbol = machine.symbol symbol)
    (hforgets : ∀ r ∈ kept, state'.live.get? (.reg r) = none ∨
      state'.live.get? (.reg r) = state.live.get? (.reg r) ∧
        machine'.symbol (.reg r) = machine.symbol (.reg r))
    (hapart : ∀ a ∈ kept, ∀ b ∈ kept, BlockState.valueReads state'.live (.reg b) (.reg a) →
      state'.live.get? (.reg a) = none →
        state.live.get? (.reg a) = none ∧ machine'.symbol (.reg a) = machine.symbol (.reg a)) :
    ∃ v', Denotes kept state'.live v' world machine' := by
  refine ⟨v.renew kept state'.live machine', ?_, h.byZero, ?_⟩
  · intro symbol hsymbol
    rw [Valuation.renew_symbol_of_offProcessor hsymbol, h.outside symbol hsymbol,
      hoffProcessor symbol hsymbol]
  · intro r hr
    cases hvalue : state'.live.get? (.reg r) with
    | none => rw [Valuation.bind_symbol_of_none hvalue, Valuation.renew_symbol hr hvalue]
    | some value =>
        obtain ⟨hsame, hmachine⟩ := (hforgets r hr).resolve_left (by simp [hvalue])
        rw [hvalue] at hsame
        have hmeaning : value.eval (v.renew kept state'.live machine') = value.eval v := by
          refine Valuation.eval_renew (hstate.form r hr value hsame.symm).steady ?_
          intro a ha hread hnone
          obtain ⟨hunbound, hkept⟩ := hapart a ha r hr
            (by simp [BlockState.valueReads, hvalue, hread]) hnone
          rw [hkept, ← h.value a ha, Valuation.bind_symbol_of_none hunbound]
        rw [Valuation.bind_symbol_of_some hvalue, hmeaning, hmachine, ← h.value r hr,
          Valuation.bind_symbol_of_some hsame.symm]

/-- What is computed from the registers is computed from their values at hand. -/
theorem eval (h : Denotes kept state.live v world machine) (hstate : state.Follows managed kept)
    {e : Expr} (hsteady : e.Steady (Symbol.among kept)) (hflagless : e.Within .flagless) :
    (state.eval e).eval v = e.eval (machine.valuation world) := by
  rw [BlockState.eval, Expr.eval_reduce_of_flagless (hstate.flagless_bind hsteady hflagless),
    Expr.eval_bind]
  apply Expr.eval_congr
  · intro read hread
    by_cases hprocessor : read.onProcessor
    · have hamong := hsteady.reads read hread hprocessor
      cases read with
      | reg r => exact h.value r (of_decide_eq_true hamong)
      | _ => cases hamong
    · rw [Bool.not_eq_true] at hprocessor
      have hunbound : state.live.get? read = none := by
        refine Option.eq_none_iff_forall_ne_some.mpr fun found hfound => ?_
        rw [hstate.processor read found hfound] at hprocessor
        cases hprocessor
      rw [Valuation.bind_symbol_of_none hunbound]
      exact h.outside read hprocessor
  · intro hmemory
    rw [hsteady.memoryless] at hmemory
    cases hmemory
  · exact h.byZero

/-- The values of an effect are taken over. -/
theorem take (h : Denotes kept state.live v world machine) (hstate : state.Follows managed kept)
    {insn : Instruction} (hlifted : insn.Lifted) (hmoves : insn.MovesFrame (Symbol.among kept))
    (hlive : ∀ symbol, state'.live.get? symbol =
      ((insn.effect.toBinding.get? symbol).map state.eval).or (state.live.get? symbol)) :
    Denotes kept state'.live v world (machine.execRegisters world insn.effect) := by
  refine ⟨?_, h.byZero, ?_⟩
  · intro symbol hsymbol
    have hunbound : insn.effect.toBinding.get? symbol = none :=
      hlifted.get?_of_offProcessor hsymbol
    rw [h.outside symbol hsymbol, MachineState.symbol_execRegisters_of_none hunbound]
  · intro r hr
    have hfound := hlive (.reg r)
    cases hvalue : insn.effect.toBinding.get? (.reg r) with
    | none =>
        rw [hvalue] at hfound
        rw [MachineState.symbol_execRegisters_of_none hvalue, ← h.value r hr]
        simp only [Valuation.bind, hfound]
        rfl
    | some value =>
        have hwrite := Effect.mem_of_get?_toBinding hvalue
        rw [hvalue] at hfound
        rw [Valuation.bind_symbol_of_some hfound, MachineState.symbol_execRegisters, hvalue]
        exact h.eval hstate (hmoves _ hwrite (.reg r) rfl (decide_eq_true hr))
          (hlifted.flagless_write hwrite)

end Denotes

/-! ## Instructions -/

/-- Whether an instruction counts down. -/
def Kind.counts : Kind → Bool
  | loop _ => true
  | _ => false

/-- What an operand is given is part of what is written. -/
theorem Operand.steady_of_assign {target : Operand} {e value : Expr} {location : Location}
    (hwrite : (location, value) ∈ target.assign e) {managed : Symbol → Bool}
    (hsteady : value.Steady managed) : e.Steady managed := by
  cases target with
  | reg register size =>
      rw [assign, assign?] at hwrite
      split at hwrite
      · cases List.mem_singleton.mp hwrite
        exact hsteady
      · cases List.mem_singleton.mp hwrite
        obtain ⟨hmemoryless, hreads⟩ := hsteady
        simp only [Expr.readsMemory, Expr.references, Bool.or_eq_false_iff, Bool.or_eq_true]
          at hmemoryless hreads
        exact ⟨hmemoryless.2.1, fun read hread => hreads read (.inr (.inl hread))⟩
  | special | mem =>
      cases List.mem_singleton.mp hwrite
      exact hsteady
  | imm => exact absurd hwrite List.not_mem_nil

namespace BlockContext

/-- No value at hand of the given registers mentions a register that gets another value
while the instruction makes room for itself: one whose value is written out or forgotten,
or the counter of a loop. -/
structure Apart (context : BlockContext) (kept : List Reg) (insn : Instruction) (l : Lowering) :
    Prop where
  forgotten : ∀ a ∈ kept, ∀ b ∈ kept,
    BlockState.valueReads (context.cleared insn l).live (.reg b) (.reg a) →
      (context.cleared insn l).live.get? (.reg a) = none → l.state.live.get? (.reg a) = none
  counted : insn.kind.counts → .ecx ∈ kept →
    (context.cleared insn l).live.get? (.reg .ecx) = none ∧ ∀ b ∈ kept,
      BlockState.valueReads (context.cleared insn l).live (.reg b) (.reg .ecx) = false

/-- Values stay apart at every instruction before the `rest`. -/
def ApartThroughout (context : BlockContext) (kept : List Reg) :
    List Instruction → List Instruction → Lowering → Prop
  | [], _, _ => True
  | insn :: more, rest, l =>
    context.Apart kept insn l ∧
      context.ApartThroughout kept more rest (context.lower insn (more ++ rest) l)

variable (context : BlockContext) {kept : List Reg} {insn : Instruction} {l : Lowering}

/-- Of the given registers an instruction that is neither plain nor a return can bind only
the counter of a loop: all others would take a value from a special register or a port. -/
theorem counts_of_get?_effect (hlifted : insn.Lifted) (hkind : insn.kind ≠ .plain)
    (hret : insn.kind ≠ .ret) (hmoves : insn.MovesFrame (Symbol.among kept)) {r : Reg}
    (hr : r ∈ kept) {value : Expr}
    (hvalue : insn.effect.toBinding.get? (.reg r) = some value) :
    insn.kind.counts ∧ r = .ecx := by
  have hwrite := Effect.mem_of_get?_toBinding hvalue
  have hsteady := hmoves _ hwrite (.reg r) rfl (decide_eq_true hr)
  cases hlifted.form with
  | plain hplain => exact absurd hplain hkind
  | ret hcase _ => exact absurd hcase hret
  | idle _ heffect | misfit _ _ heffect =>
      rw [heffect] at hwrite
      exact absurd hwrite List.not_mem_nil
  | loop hcase heffect =>
      rw [heffect, List.mem_singleton] at hwrite
      cases hwrite
      exact ⟨hcase ▸ rfl, rfl⟩
  | setSpecial _ _ heffect | loadTable _ _ heffect | systemLoad _ _ heffect
  | portOut _ _ heffect =>
      rw [heffect, List.mem_singleton] at hwrite
      cases hwrite
  | @getSpecial special _ _ _ _ heffect =>
      have hspecial := Operand.steady_of_assign (heffect ▸ hwrite) hsteady
      exact absurd (hspecial.reads (.special special) (by simp [Expr.references]) rfl)
        Bool.false_ne_true
  | portIn _ _ heffect =>
      have hport := Operand.steady_of_assign (heffect ▸ hwrite) hsteady
      exact absurd hport.memoryless (Ne.symm Bool.false_ne_true)

/-- One instruction keeps the values at hand in step with the machine. -/
theorem denotes_lower (hlifted : insn.Lifted) (hret : insn.kind ≠ .ret)
    (hmoves : insn.MovesFrame (Symbol.among kept)) {v : Valuation} {world : World}
    {machine : MachineState} (hstate : l.state.Follows context.scope.isManaged kept)
    (hapart : context.Apart kept insn l) (h : Denotes kept l.state.live v world machine)
    (rest : List Instruction) :
    ∃ v', Denotes kept (context.lower insn rest l).state.live v' world
      (machine.execRegisters world insn.effect) := by
  by_cases hkind : insn.kind = .plain
  · have hcleared := hstate.evolves hlifted hmoves (context.evolves_cleared insn l)
    obtain ⟨v', h'⟩ : ∃ v', Denotes kept (context.cleared insn l).live v' world machine := by
      refine h.forget hstate (fun _ _ => rfl) ?_ fun a ha b hb hreads hnone =>
        ⟨hapart.forgotten a ha b hb hreads hnone, rfl⟩
      intro r _
      exact (context.get?_live_cleared insn l (.reg r)).imp_right fun hsame => ⟨hsame, rfl⟩
    exact ⟨v', h'.take hcleared hlifted hmoves (context.get?_live_lower_plain hkind rest l)⟩
  · have hkept : ∀ r ∈ kept, ¬(insn.kind.counts ∧ r = .ecx) →
        (machine.execRegisters world insn.effect).symbol (.reg r) = machine.symbol (.reg r) := by
      intro r hr hnot
      apply MachineState.symbol_execRegisters_of_none
      exact Option.eq_none_iff_forall_ne_some.mpr fun _ hvalue =>
        hnot (counts_of_get?_effect hlifted hkind hret hmoves hr hvalue)
    rw [context.state_lower hlifted hkind]
    refine h.forget hstate ?_ ?_ ?_
    · intro symbol hsymbol
      exact MachineState.symbol_execRegisters_of_none (hlifted.get?_of_offProcessor hsymbol)
    · intro r hr
      by_cases hcounter : insn.kind.counts ∧ r = .ecx
      · obtain ⟨hcounts, rfl⟩ := hcounter
        exact .inl (hapart.counted hcounts hr).1
      · exact (context.get?_live_cleared insn l (.reg r)).imp_right fun hsame =>
          ⟨hsame, hkept r hr hcounter⟩
    · intro a ha b hb hreads hnone
      refine ⟨hapart.forgotten a ha b hb hreads hnone, hkept a ha ?_⟩
      rintro ⟨hcounts, rfl⟩
      rw [(hapart.counted hcounts ha).2 b hb] at hreads
      cases hreads

theorem follows_lowerUpTo {first : List Instruction} (hlifted : ∀ insn ∈ first, insn.Lifted)
    (hmoves : ∀ insn ∈ first, insn.MovesFrame (Symbol.among kept))
    (hstate : l.state.Follows context.scope.isManaged kept) (rest : List Instruction) :
    (context.lowerUpTo first rest l).state.Follows context.scope.isManaged kept :=
  context.lowerUpTo_invariant (fun insn hinsn _ _ h =>
    h.evolves (hlifted insn hinsn) (hmoves insn hinsn) (context.evolves_lower _ _ _)) rest hstate

/-- A run of instructions keeps the values at hand in step with the machine. -/
theorem denotes_lowerUpTo {first : List Instruction} (hlifted : ∀ insn ∈ first, insn.Lifted)
    (hret : ∀ insn ∈ first, insn.kind ≠ .ret)
    (hmoves : ∀ insn ∈ first, insn.MovesFrame (Symbol.among kept))
    {v : Valuation} {world : World} {machine : MachineState}
    (hstate : l.state.Follows context.scope.isManaged kept) (rest : List Instruction)
    (hapart : context.ApartThroughout kept first rest l)
    (h : Denotes kept l.state.live v world machine) :
    ∃ v', Denotes kept (context.lowerUpTo first rest l).state.live v' world
      (machine.runRegisters world first) := by
  induction first generalizing v machine l with
  | nil => exact ⟨v, h⟩
  | cons insn more ih =>
      obtain ⟨hinsn, hmore⟩ := List.forall_mem_cons.mp hlifted
      obtain ⟨hstay, hret⟩ := List.forall_mem_cons.mp hret
      obtain ⟨hmove, hmoves⟩ := List.forall_mem_cons.mp hmoves
      obtain ⟨v', h'⟩ := context.denotes_lower hinsn hstay hmove hstate hapart.1 h (more ++ rest)
      exact ih hmore hret hmoves (hstate.evolves hinsn hmove (context.evolves_lower _ _ _))
        hapart.2 h'

/-- Of the given registers an instruction overwrites from outside only those that calls and
port inputs use. -/
theorem scratch_of_mem_clobbers (hlifted : insn.Lifted)
    (hmoves : insn.MovesFrame (Symbol.among kept)) {r : Reg} (hr : r ∈ kept)
    (hclobbers : .reg r ∈ context.clobbers insn) :
    r = .eax ∨ r ∈ context.config.scratchRegisters := by
  unfold clobbers at hclobbers
  split at hclobbers
  · grind [EmissionContext.scratch]
  · rename_i special hkind
    obtain ⟨target, hoperands, heffect⟩ : ∃ target, insn.operands = [target, .special special] ∧
        insn.effect = target.assign (.sym (.special special)) := by
      cases hlifted.form <;> grind [Kind.isIdle, Kind.isIntrinsic]
    rw [hoperands] at hclobbers
    cases target with
    | reg register size =>
        obtain rfl : r = register := by simpa [Operand.asReg?] using hclobbers
        obtain ⟨value, hwrite⟩ : ∃ value, (.sym (.reg r), value) ∈ insn.effect := by
          rw [heffect, Operand.assign, Operand.assign?]
          split
          · exact ⟨_, List.mem_singleton_self _⟩
          · exact ⟨_, List.mem_singleton_self _⟩
        have hspecial := Operand.steady_of_assign (heffect ▸ hwrite)
          (hmoves _ hwrite (.reg r) rfl (decide_eq_true hr))
        exact absurd (hspecial.reads (.special special) (by simp [Expr.references]) rfl)
          Bool.false_ne_true
    | _ => exact absurd hclobbers List.not_mem_nil
  · grind
  · exact absurd hclobbers List.not_mem_nil

/-- Registers that the frame manages keep their values, unless calls, port inputs or loops
use them. -/
theorem apart_of_managed (hlifted : insn.Lifted)
    (hmoves : insn.MovesFrame (Symbol.among kept))
    (hframed : l.state.Framed context.scope.isManaged)
    (hmanaged : ∀ r ∈ kept, context.scope.isManaged (.reg r) ∧
      r ∉ .eax :: .ecx :: context.config.scratchRegisters) : context.Apart kept insn l where
  forgotten a ha _ _ _ hnone := by
    obtain ⟨hframe, hunused⟩ := hmanaged a ha
    have hclobbers : .reg a ∉ context.clobbers insn := fun hmem => hunused <| by
      rcases context.scratch_of_mem_clobbers hlifted hmoves ha hmem with rfl | hscratch
      · exact List.mem_cons_self
      · exact List.mem_cons_of_mem _ (List.mem_cons_of_mem _ hscratch)
    rwa [context.get?_live_cleared_of_managed hframed hframe hclobbers] at hnone
  counted _ hecx := absurd (List.mem_cons_of_mem _ List.mem_cons_self) (hmanaged .ecx hecx).2

theorem apartThroughout_of_managed {first : List Instruction}
    (hlifted : ∀ insn ∈ first, insn.Lifted)
    (hmoves : ∀ insn ∈ first, insn.MovesFrame (Symbol.among kept))
    (hframed : l.state.Framed context.scope.isManaged)
    (hmanaged : ∀ r ∈ kept, context.scope.isManaged (.reg r) ∧
      r ∉ .eax :: .ecx :: context.config.scratchRegisters)
    (rest : List Instruction) : context.ApartThroughout kept first rest l := by
  induction first generalizing l with
  | nil => trivial
  | cons insn more ih =>
      obtain ⟨hinsn, hmore⟩ := List.forall_mem_cons.mp hlifted
      obtain ⟨hmove, hmoves⟩ := List.forall_mem_cons.mp hmoves
      refine ⟨context.apart_of_managed hinsn hmove hframed hmanaged, ih hmore hmoves ?_⟩
      exact hframed.evolves (fun _ _ => hinsn.symbol_write) (context.evolves_lower _ _ _)

end BlockContext

end Uncompile
