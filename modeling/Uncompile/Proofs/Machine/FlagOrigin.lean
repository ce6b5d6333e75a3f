import Uncompile.Proofs.Machine.LiftSound

/-!
# Where a flag comes from

In a run of lifted instructions a flag has the value that the last instruction with a
formula for it gave it. On the processor it comes from the last instruction that changes
it. The two are one instruction, except that some instructions change flags that their
effect leaves out, and that shifts by zero have formulas for flags that they keep.
-/

namespace Uncompile

/-! ## Lifted flags -/

namespace Opcode

/-- The flags that the effect of an opcode gives a value. -/
def lifts : Opcode → StatusFlag → Bool
  | add, _ | sub, _ | cmp, _ | and, _ | test, _ | or, _ | xor, _ => true
  | inc, f | dec, f => f ≠ .carry
  | neg, f => f ≠ .overflow
  | shl, f | shr, f | sar, f => f = .zero || f = .sign
  | _, _ => false

theorem get?_flag_pop (target : Operand) (f : Flag) :
    (Lift.pop target).toBinding.get? (.flag f) = none := by
  rw [Lift.pop]
  split
  · rfl
  · exact Effect.get?_flag_assign_append target _ _ f

theorem isSome_get?_flag {opcode : Opcode} {operands : List Operand} {effect : Effect}
    (heffect : opcode.effect? operands = some effect) (f : StatusFlag) :
    (effect.toBinding.get? (.flag f.flag)).isSome = opcode.lifts f := by
  unfold effect? at heffect
  split at heffect <;> simp only [Option.some.injEq, reduceCtorEq] at heffect <;> subst heffect
  -- effects without a flag are computed, the others end with theirs
  all_goals try rfl
  all_goals
    simp only [Lift.add, Lift.sub, Lift.bitwise, Lift.step, Lift.neg, Lift.shift, Lift.compareFlags,
      Lift.logicFlags, List.append_assoc, get?_flag_pop, Effect.get?_flag_assign,
      Effect.get?_flag_assign_append]
    cases f <;> rfl

/-- The processor sets every lifted flag of an operation. -/
theorem exists_sets_of_outcome {opcode : Opcode} {a b : Word} {outcome : Outcome 32}
    (houtcome : opcode.outcome? a b = some outcome) {f : StatusFlag}
    (hlifts : opcode.lifts f = true) :
    ∃ bit, outcome.action f = .sets bit := by
  cases opcode <;> simp only [outcome?, Option.some.injEq, reduceCtorEq] at houtcome <;>
    subst houtcome
  case inc | dec =>
    have hcarry : f ≠ .carry := of_decide_eq_true hlifts
    exact ⟨_, if_neg hcarry⟩
  case not => exact absurd hlifts Bool.false_ne_true
  all_goals exact ⟨_, rfl⟩

/-- A shift lifts the zero and the sign flag, which it sets unless it shifts by zero. -/
theorem exists_sets_of_shifted {opcode : Opcode} {a : Word} {count : Nat} {outcome : Outcome 32}
    (houtcome : opcode.shifted? a count = some outcome) {f : StatusFlag}
    (hlifts : opcode.lifts f = true) :
    opcode ∈ [shl, shr, sar] ∧ f ∈ [StatusFlag.zero, .sign] ∧
      (count ≠ 0 → ∃ bit, outcome.action f = .sets bit) := by
  cases opcode <;> simp only [shifted?, Option.some.injEq, reduceCtorEq] at houtcome <;>
    subst houtcome
  all_goals
    have hf : f = .zero ∨ f = .sign := by simpa [lifts] using hlifts
    refine ⟨by decide, List.mem_pair.mpr hf, fun hcount => ?_⟩
    rcases hf with rfl | rfl <;> exact ⟨_, if_neg hcount⟩

/-- A shift by zero keeps its operand and the flags. -/
theorem shifted_zero {opcode : Opcode} {a : Word} {outcome : Outcome 32}
    (houtcome : opcode.shifted? a 0 = some outcome) :
    outcome.result = a ∧ ∀ f, outcome.action f = .keeps := by
  cases opcode <;> simp only [shifted?, Option.some.injEq, reduceCtorEq] at houtcome <;>
    subst houtcome
  case shl => exact ⟨BitVec.shiftLeft_zero a, fun _ => rfl⟩
  case shr => exact ⟨BitVec.ushiftRight_zero a, fun _ => rfl⟩
  case sar => exact ⟨BitVec.sshiftRight_zero, fun _ => rfl⟩

/-- The flags of an instruction that lifts one are those of an operation or a shift. -/
theorem exists_outcome_of_lifts {opcode : Opcode} {machine : MachineState}
    {operands : List Operand} {action : StatusFlag → FlagAction}
    (haction : opcode.actions? machine operands = some action) {f : StatusFlag}
    (hlifts : opcode.lifts f = true) :
    (∃ a b, ∃ outcome : Outcome 32, opcode.outcome? a b = some outcome ∧ outcome.action = action) ∨
      ∃ target count outcome, operands = [target, count] ∧
        opcode.shifted? (target.word machine) (count.shiftCount machine) = some outcome ∧
        outcome.action = action := by
  unfold actions? at haction
  split at haction
  -- the other opcodes of the catalogue have no formula for a flag
  all_goals try exact absurd hlifts Bool.false_ne_true
  all_goals try
    obtain ⟨outcome, houtcome, rfl⟩ := Option.map_eq_some_iff.mp haction
  all_goals first
    | exact Or.inl ⟨_, _, outcome, houtcome, rfl⟩
    | exact Or.inr ⟨_, _, outcome, rfl, houtcome, rfl⟩
    | exact absurd haction (Option.some_ne_none action).symm

/-- An instruction that lifts a flag sets it, or it is a shift by zero. -/
theorem shifts_of_keeps {opcode : Opcode} {machine : MachineState} {operands : List Operand}
    {action : StatusFlag → FlagAction} (haction : opcode.actions? machine operands = some action)
    {f : StatusFlag} (hlifts : opcode.lifts f = true) (hkeeps : action f = .keeps) :
    opcode ∈ [shl, shr, sar] ∧ f ∈ [StatusFlag.zero, .sign] ∧
      ∃ target count, operands = [target, count] ∧ count.shiftCount machine = 0 := by
  rcases exists_outcome_of_lifts haction hlifts with
    ⟨a, b, outcome, houtcome, rfl⟩ | ⟨target, count, outcome, hoperands, houtcome, rfl⟩
  · obtain ⟨bit, hsets⟩ := exists_sets_of_outcome houtcome hlifts
    rw [hkeeps] at hsets
    exact absurd hsets (by simp)
  · obtain ⟨hopcode, hf, hcount⟩ := exists_sets_of_shifted houtcome hlifts
    refine ⟨hopcode, hf, target, count, hoperands, ?_⟩
    by_contra hne
    obtain ⟨bit, hsets⟩ := hcount hne
    rw [hkeeps] at hsets
    exact absurd hsets (by simp)

/-- A shift of a word that changes a flag reports what the processor does. -/
theorem reports_shift {world : World} {machine : MachineState} {opcode : Opcode}
    (hopcode : opcode ∈ [shl, shr, sar]) {target count : Operand} (htarget : target.isWide)
    {effect : Effect} (heffect : opcode.effect? [target, count] = some effect)
    {action : StatusFlag → FlagAction}
    (haction : opcode.actions? machine [target, count] = some action) {f : StatusFlag}
    (hchanges : action f ≠ .keeps) : effect.Reports (machine.valuation world) action := by
  obtain ⟨result, flags, outcome, heffect', houtcome, -, hreports⟩ :=
    exists_shape_shift hopcode target count (machine.valuation world)
  obtain rfl := Option.some.inj (heffect'.symm.trans heffect)
  rw [Operand.eval_value_of_isWide world machine htarget] at houtcome
  rw [Operand.toNat_eval_value_mod world machine] at houtcome hreports
  have hoperation : opcode.actions? machine [target, count] = some outcome.action := by
    simp only [List.mem_cons, List.not_mem_nil, or_false] at hopcode
    rcases hopcode with rfl | rfl | rfl <;> simp only [actions?, houtcome, Option.map_some]
  obtain rfl : outcome.action = action := Option.some.inj (hoperation.symm.trans haction)
  have hcount : count.shiftCount machine ≠ 0 := by
    intro hzero
    rw [hzero] at houtcome
    exact hchanges ((shifted_zero houtcome).2 f)
  exact (Effect.reports_assign target result).append (hreports hcount)

/-- A lifted flag that an instruction on words changes follows the processor. -/
theorem follows_of_form {world : World} {machine : MachineState} {opcode : Opcode}
    {operands : List Operand}
    (hform : ArithmeticForm opcode operands ∨ TransferForm opcode operands)
    {effect : Effect} (heffect : opcode.effect? operands = some effect)
    {action : StatusFlag → FlagAction} (haction : opcode.actions? machine operands = some action)
    {f : StatusFlag} (hchanges : action f ≠ .keeps) {value : Expr}
    (hvalue : effect.toBinding.get? (.flag f.flag) = some value) :
    value.Follows (machine.valuation world) (action f) := by
  have hmem := Effect.mem_of_get?_toBinding hvalue
  have hlifts : opcode.lifts f = true := by
    rw [← isSome_get?_flag heffect, hvalue]
    rfl
  rcases hform with hform | hform
  · have hleaves : opcode.LeavesFlags world machine operands := (leaves_of_arithmeticForm hform).2
    obtain ⟨effect', action', heffect', haction', hreports, -⟩ := hleaves
    obtain rfl : effect = effect' := Option.some.inj (heffect.symm.trans heffect')
    obtain rfl : action = action' := Option.some.inj (haction.symm.trans haction')
    exact hreports f value hmem
  · cases hform with
    | shift hopcode htarget count =>
        exact reports_shift hopcode htarget heffect haction hchanges f value hmem
    | extension hopcode r hsource =>
        rcases List.mem_pair.mp hopcode with rfl | rfl <;> exact absurd hlifts Bool.false_ne_true
    | _ => exact absurd hlifts Bool.false_ne_true

/-- The opcodes of the catalogue. -/
def catalogued : List Opcode :=
  [push, pop, mov, add, sub, or, xor, and, not, mul, div, idiv, imul, shr, shl, sar, test, cmp, inc,
    dec, lea, movzx, movsx, neg, cdq, leave, nop]

theorem ofName?_catalogue : catalogue.map ofName? = catalogued.map some := by decide +kernel

theorem ofMnemonic_mem_catalogued {mnemonic : String} (hname : mnemonic.toLower ∈ catalogue) :
    ofMnemonic mnemonic ∈ catalogued := by
  have hmem : ofName? mnemonic.toLower ∈ catalogue.map ofName? := List.mem_map_of_mem hname
  rw [ofName?_catalogue] at hmem
  obtain ⟨opcode, hopcode, hread⟩ := List.mem_map.mp hmem
  rw [ofMnemonic, ← hread]
  exact hopcode

/-- What the processor does to the flags is known of all liftable instructions of the
catalogue. -/
theorem exists_actions {opcode : Opcode} (hopcode : opcode ∈ catalogued) {operands : List Operand}
    {effect : Effect} (heffect : opcode.effect? operands = some effect) (machine : MachineState) :
    ∃ action, opcode.actions? machine operands = some action := by
  unfold effect? at heffect
  split at heffect
  all_goals first
    | exact ⟨_, rfl⟩
    | exact absurd heffect (Option.some_ne_none effect).symm
    | simp [catalogued] at hopcode

end Opcode

/-! ## Runs -/

namespace Instruction

/-- The processor keeps a flag. -/
def Keeps (insn : Instruction) (machine : MachineState) (f : StatusFlag) : Prop :=
  ∀ action, insn.opcode.actions? machine insn.operands = some action → action f = .keeps

/-- The processor sets a flag or leaves it undefined. -/
def Changes (insn : Instruction) (machine : MachineState) (f : StatusFlag) : Prop :=
  ∀ action, insn.opcode.actions? machine insn.operands = some action → action f ≠ .keeps

/-- An instruction of the catalogue with its lifted effect. -/
structure Accepted (insn : Instruction) : Prop where
  catalogued : insn.mnemonic.toLower ∈ Opcode.catalogue
  effect : insn.opcode.effect? insn.operands = some insn.effect

theorem accepted_ofMnemonic (address : Address) {mnemonic : String} {operands : List Operand}
    (hname : mnemonic.toLower ∈ Opcode.catalogue) {effect : Effect}
    (heffect : (Opcode.ofMnemonic mnemonic).effect? operands = some effect) :
    (ofMnemonic address mnemonic operands).Accepted where
  catalogued := hname
  effect := by
    simp only [ofMnemonic, opcode, heffect, Option.getD_some]

theorem Accepted.exists_actions {insn : Instruction} (h : insn.Accepted) (machine : MachineState) :
    ∃ action, insn.opcode.actions? machine insn.operands = some action :=
  Opcode.exists_actions (Opcode.ofMnemonic_mem_catalogued h.catalogued) h.effect machine

end Instruction

namespace MachineState

variable (world : World)

/-- The processor keeps a flag along a run. -/
def KeepsFlag (f : StatusFlag) (machine : MachineState) : List Instruction → Prop
  | [] => True
  | insn :: rest => insn.Keeps machine f ∧ (machine.exec world insn.effect).KeepsFlag f rest

variable {world} {f : StatusFlag}

theorem keepsFlag_append {machine : MachineState} {first rest : List Instruction} :
    machine.KeepsFlag world f (first ++ rest) ↔
      machine.KeepsFlag world f first ∧ (machine.run world first).KeepsFlag world f rest := by
  induction first generalizing machine with
  | nil => exact (and_iff_right trivial).symm
  | cons insn first ih => exact (and_congr_right fun _ => ih).trans and_assoc.symm

/-- An instruction without a formula for a flag leaves it. -/
theorem symbol_exec_of_not_lifts (machine : MachineState) {insn : Instruction}
    (hinsn : insn.Accepted) (hlifts : insn.opcode.lifts f = false) :
    (machine.exec world insn.effect).symbol (.flag f.flag) = machine.symbol (.flag f.flag) := by
  have hsome := Opcode.isSome_get?_flag hinsn.effect f
  rw [hlifts, Option.isSome_eq_false_iff, Option.isNone_iff_eq_none] at hsome
  rw [symbol_exec, hsome]
  rfl

theorem symbol_run_of_not_lifts (machine : MachineState) {insns : List Instruction}
    (hinsns : ∀ insn ∈ insns, insn.Accepted ∧ insn.opcode.lifts f = false) :
    (machine.run world insns).symbol (.flag f.flag) = machine.symbol (.flag f.flag) := by
  induction insns generalizing machine with
  | nil => rfl
  | cons insn rest ih =>
      obtain ⟨hinsn, hrest⟩ := List.forall_mem_cons.mp hinsns
      rw [run, ih _ hrest, symbol_exec_of_not_lifts machine hinsn.1 hinsn.2]

/-- The flag after a run is the one after the last instruction with a formula for it. -/
theorem symbol_run_append_cons (machine : MachineState) {before after : List Instruction}
    {insn : Instruction} (hafter : ∀ other ∈ after, other.Accepted ∧ other.opcode.lifts f = false) :
    (machine.run world (before ++ insn :: after)).symbol (.flag f.flag) =
      ((machine.run world before).exec world insn.effect).symbol (.flag f.flag) := by
  rw [run_append, run, symbol_run_of_not_lifts _ hafter]

/-- The formulas of a shift by zero tell its operand. -/
theorem symbol_exec_shift_zero (machine : MachineState) {insn : Instruction} (hinsn : insn.Accepted)
    (hopcode : insn.opcode ∈ [Opcode.shl, .shr, .sar]) {target count : Operand}
    (hoperands : insn.operands = [target, count]) (hcount : count.shiftCount machine = 0)
    (hf : f ∈ [StatusFlag.zero, .sign]) :
    (machine.exec world insn.effect).symbol (.flag f.flag) =
      BinOp.truth ((StatusFlags.ofResult (target.value.eval (machine.valuation world))).get f) := by
  obtain ⟨result, flags, outcome, heffect, houtcome, hshape, -⟩ :=
    Opcode.exists_shape_shift hopcode target count (machine.valuation world)
  have hinsn' := hinsn.effect
  rw [hoperands, heffect, Option.some.injEq] at hinsn'
  rw [Operand.toNat_eval_value_mod, hcount] at houtcome
  rw [(Opcode.shifted_zero houtcome).1] at hshape
  obtain ⟨hzero, hsign⟩ := machine.symbol_exec_shape world hshape
  rw [← hinsn', symbol_exec_assign_append]
  rcases List.mem_pair.mp hf with rfl | rfl
  · exact hzero
  · exact hsign

end MachineState

namespace Instruction.Accepted

variable {world : World} {machine : MachineState} {insn : Instruction} {f : StatusFlag}

/-- An instruction that changes a flag and has a formula for it gives the flag the value of
that formula, which follows the processor for instructions on words. -/
theorem exists_value (h : insn.Accepted) (hchanges : insn.Changes machine f)
    (hlifts : insn.opcode.lifts f = true) :
    ∃ action value, insn.opcode.actions? machine insn.operands = some action ∧
      insn.registerEffect.get? (.flag f.flag) = some value ∧
      (machine.exec world insn.effect).symbol (.flag f.flag) =
        value.eval (machine.valuation world) ∧
      (ArithmeticForm insn.opcode insn.operands ∨ TransferForm insn.opcode insn.operands →
        value.Follows (machine.valuation world) (action f)) := by
  obtain ⟨action, haction⟩ := h.exists_actions machine
  have hsome := Opcode.isSome_get?_flag h.effect f
  rw [hlifts] at hsome
  obtain ⟨value, hvalue⟩ := Option.isSome_iff_exists.mp hsome
  refine ⟨action, value, haction, hvalue, ?_, fun hform => ?_⟩
  · rw [MachineState.symbol_exec, hvalue]
    rfl
  · exact Opcode.follows_of_form hform h.effect haction (hchanges action haction) hvalue

/-- An instruction that keeps a flag and has a formula for it is a shift by zero. -/
theorem exists_shift (h : insn.Accepted) (hkeeps : insn.Keeps machine f)
    (hlifts : insn.opcode.lifts f = true) :
    f ∈ [StatusFlag.zero, .sign] ∧ ∃ target count, insn.operands = [target, count] ∧
      count.shiftCount machine = 0 ∧
      (machine.exec world insn.effect).symbol (.flag f.flag) =
        BinOp.truth
          ((StatusFlags.ofResult (target.value.eval (machine.valuation world))).get f) := by
  obtain ⟨action, haction⟩ := h.exists_actions machine
  obtain ⟨hopcode, hf, target, count, hoperands, hcount⟩ :=
    Opcode.shifts_of_keeps haction hlifts (hkeeps action haction)
  exact ⟨hf, target, count, hoperands, hcount,
    machine.symbol_exec_shift_zero h hopcode hoperands hcount hf⟩

end Instruction.Accepted

/-- Where a flag comes from after a run in which `insn` is the last instruction that changes
it on the processor. If neither `insn` nor a later instruction has a formula for the flag,
it is still the one from before `insn`. If `insn` is the last with a formula, the flag is the
value of that formula, which follows the processor for instructions on words. A later
instruction with a formula is a shift by zero, and the flag tells its operand. -/
theorem Instruction.flag_origin (world : World) (machine : MachineState) (f : StatusFlag)
    (before after : List Instruction) {insn : Instruction}
    (haccepted : ∀ other ∈ before ++ insn :: after, other.Accepted)
    (hchanges : insn.Changes (machine.run world before) f)
    (hkeeps : ((machine.run world before).exec world insn.effect).KeepsFlag world f after) :
    let start := machine.run world before
    let final := (machine.run world (before ++ insn :: after)).symbol (.flag f.flag)
    ((∀ other ∈ insn :: after, other.opcode.lifts f = false) →
      final = start.symbol (.flag f.flag)) ∧
    (insn.opcode.lifts f = true → (∀ other ∈ after, other.opcode.lifts f = false) →
      ∃ action value, insn.opcode.actions? start insn.operands = some action ∧
        insn.registerEffect.get? (.flag f.flag) = some value ∧
        final = value.eval (start.valuation world) ∧
        (ArithmeticForm insn.opcode insn.operands ∨ TransferForm insn.opcode insn.operands →
          value.Follows (start.valuation world) (action f))) ∧
    ∀ first shift rest, after = first ++ shift :: rest → shift.opcode.lifts f = true →
      (∀ other ∈ rest, other.opcode.lifts f = false) →
      let reached := machine.run world (before ++ insn :: first)
      f ∈ [StatusFlag.zero, .sign] ∧ ∃ target count, shift.operands = [target, count] ∧
        count.shiftCount reached = 0 ∧
        final = BinOp.truth
          ((StatusFlags.ofResult (target.value.eval (reached.valuation world))).get f) := by
  intro start final
  obtain ⟨-, hrest⟩ := List.forall_mem_append.mp haccepted
  obtain ⟨hinsn, hafter⟩ := List.forall_mem_cons.mp hrest
  refine ⟨?_, ?_, ?_⟩
  · intro hlifts
    have hkept : (start.run world (insn :: after)).symbol (.flag f.flag) =
        start.symbol (.flag f.flag) :=
      start.symbol_run_of_not_lifts fun other hother => ⟨hrest other hother, hlifts other hother⟩
    rw [← hkept, ← MachineState.run_append]
  · intro hlifts hlater
    have hfinal : final = (start.exec world insn.effect).symbol (.flag f.flag) :=
      machine.symbol_run_append_cons fun other hother => ⟨hafter other hother, hlater other hother⟩
    rw [hfinal]
    exact hinsn.exists_value hchanges hlifts
  · rintro first shift rest rfl hlifts hlater reached
    obtain ⟨-, hshifts⟩ := List.forall_mem_append.mp hafter
    obtain ⟨hshift, hlast⟩ := List.forall_mem_cons.mp hshifts
    have hreached : reached = (start.exec world insn.effect).run world first :=
      MachineState.run_append world machine before (insn :: first)
    have hkept : shift.Keeps reached f := by
      rw [hreached]
      exact (MachineState.keepsFlag_append.mp hkeeps).2.1
    have hsplit : before ++ insn :: (first ++ shift :: rest) =
        (before ++ insn :: first) ++ shift :: rest := by
      rw [List.append_assoc, List.cons_append]
    have hfinal : final = (reached.exec world shift.effect).symbol (.flag f.flag) := by
      change (machine.run world _).symbol _ = _
      rw [hsplit, machine.symbol_run_append_cons fun other hother =>
        ⟨hlast other hother, hlater other hother⟩]
    rw [hfinal]
    exact hshift.exists_shift hkept hlifts

/-! ### A carry left behind by a shift -/

namespace ShiftedOut

def machine : MachineState := .only .ecx 0x80000000 0

def test : Instruction := .ofMnemonic 0 "TEST" [.ofReg .edx, .ofReg .edx]

def shift : Instruction := .ofMnemonic 2 "SHL" [.ofReg .ecx, .imm 1]

theorem opcode_test : test.opcode = .test := by decide +kernel

theorem opcode_shift : shift.opcode = .shl := by decide +kernel

/-- The shift moves a one into the carry flag, and the lifted carry is the zero that the
test before it left. -/
theorem carry_stale :
    (∃ action, shift.opcode.actions? (machine.run .silent [test]) shift.operands = some action ∧
      action .carry = .sets true) ∧
    test.registerEffect.get? (.flag .c) = some (.const 0) ∧
    (machine.run .silent [test, shift]).symbol (.flag .c) = 0 := by
  refine ⟨?_, by decide +kernel, by decide +kernel⟩
  rw [opcode_shift]
  exact ⟨_, rfl, by decide +kernel⟩

/-- The run of the test and the shift, of which the shift changes the carry flag last. -/
theorem flag_origin_shift :
    (∀ insn ∈ [test, shift], insn.Accepted) ∧ shift.Changes (machine.run .silent [test]) .carry ∧
      (machine.run .silent [test, shift]).symbol (.flag .c) =
        (machine.run .silent [test]).symbol (.flag .c) := by
  have hname : "TEST".toLower ∈ Opcode.catalogue ∧ "SHL".toLower ∈ Opcode.catalogue := by
    decide +kernel
  have htest : test.opcode.effect? test.operands =
      some (Lift.logicFlags (.binary .and (.reg .edx) (.reg .edx))) := by
    rw [opcode_test]
    rfl
  have hshift : shift.opcode.effect? shift.operands =
      some (Lift.shift .shl (.ofReg .ecx) (.imm 1)) := by
    rw [opcode_shift]
    rfl
  have haccepted : ∀ insn ∈ [test, shift], insn.Accepted := by
    intro insn hinsn
    rcases List.mem_pair.mp hinsn with rfl | rfl
    · exact Instruction.accepted_ofMnemonic 0 hname.1 htest
    · exact Instruction.accepted_ofMnemonic 2 hname.2 hshift
  have hchanges : shift.Changes (machine.run .silent [test]) .carry := by
    intro action haction
    rw [opcode_shift] at haction
    cases haction
    decide +kernel
  have hlifts : ∀ other ∈ [shift], other.opcode.lifts .carry = false := by
    intro other hother
    rw [List.mem_singleton.mp hother, opcode_shift]
    rfl
  obtain ⟨hstale, -⟩ := Instruction.flag_origin .silent machine .carry [test] [] haccepted
    hchanges trivial
  exact ⟨haccepted, hchanges, hstale hlifts⟩

end ShiftedOut

end Uncompile
