import Uncompile.Proofs.Machine.LiftSound

/-!
# Flags of narrow operations

The lifted flags of an operation on bytes or half words are those of the operation on
the zero-extended operands. They differ from the processor's where the operation leaves
the narrow width: a sum that carries is not zero as a word, the sign of the word is the
borrow of the narrow operation, and signed conditions compare unsigned. This file says
exactly when they are right all the same.
-/

namespace Uncompile

/-! ## Zero-extended operands -/

section ZeroExtended

variable {w : Nat}

theorem toNat_lt_half (hw : w < 32) (a : BitVec w) : a.toNat < 2 ^ 31 :=
  a.isLt.trans_le (Nat.pow_le_pow_right (by decide) (Nat.le_of_lt_succ hw))

theorem toNat_add_setWidth (hw : w < 32) (a b : BitVec w) :
    (a.setWidth 32 + b.setWidth 32).toNat = a.toNat + b.toNat := by
  have ha := toNat_lt_half hw a
  have hb := toNat_lt_half hw b
  rw [BitVec.toNat_add, BitVec.toNat_setWidth_of_le hw.le, BitVec.toNat_setWidth_of_le hw.le,
    Nat.mod_eq_of_lt (by omega)]

/-- The sum of zero-extended operands is zero only if the narrow sum does not carry. -/
theorem add_setWidth_eq_zero_iff (hw : w < 32) (a b : BitVec w) :
    a.setWidth 32 + b.setWidth 32 = 0 ↔ a + b = 0 ∧ ¬a.uaddOverflow b := by
  rw [← BitVec.toNat_inj, ← BitVec.toNat_inj, toNat_add_setWidth hw, BitVec.toNat_add,
    BitVec.uaddOverflow, decide_eq_true_eq, not_le]
  change a.toNat + b.toNat = 0 ↔ (a.toNat + b.toNat) % 2 ^ w = 0 ∧ _
  constructor
  · intro hsum
    rw [hsum]
    exact ⟨Nat.zero_mod _, Nat.two_pow_pos w⟩
  · rintro ⟨hzero, hlt⟩
    rwa [Nat.mod_eq_of_lt hlt] at hzero

theorem msb_add_setWidth (hw : w < 31) (a b : BitVec w) :
    (a.setWidth 32 + b.setWidth 32).msb = false := by
  have hpow : 2 ^ w ≤ 2 ^ 30 := Nat.pow_le_pow_right (by decide) (Nat.le_of_lt_succ hw)
  have ha := a.isLt
  have hb := b.isLt
  rw [BitVec.msb_eq_decide, toNat_add_setWidth (by omega), decide_eq_false_iff_not]
  omega

theorem sub_setWidth_eq_zero_iff (hw : w < 32) (a b : BitVec w) :
    a.setWidth 32 - b.setWidth 32 = 0 ↔ a - b = 0 := by
  rw [sub_eq_zero, sub_eq_zero, ← BitVec.toNat_inj, BitVec.toNat_setWidth_of_le hw.le,
    BitVec.toNat_setWidth_of_le hw.le, BitVec.toNat_inj]

/-- The sign of a difference of zero-extended operands is the borrow of the narrow
difference. -/
theorem msb_sub_setWidth (hw : w < 32) (a b : BitVec w) :
    (a.setWidth 32 - b.setWidth 32).msb = a.usubOverflow b := by
  have ha := toNat_lt_half hw a
  have hb := toNat_lt_half hw b
  rw [BitVec.msb_eq_decide, BitVec.usubOverflow, decide_eq_decide, BitVec.toNat_sub,
    BitVec.toNat_setWidth_of_le hw.le, BitVec.toNat_setWidth_of_le hw.le]
  omega

theorem setWidth_eq_zero_iff (hw : w < 32) (a : BitVec w) : a.setWidth 32 = 0 ↔ a = 0 := by
  rw [← BitVec.toNat_inj, ← BitVec.toNat_inj, BitVec.toNat_setWidth_of_le hw.le]
  rfl

theorem msb_setWidth_eq_false (hw : w < 32) (a : BitVec w) : (a.setWidth 32).msb = false := by
  rw [BitVec.msb_eq_decide, BitVec.toNat_setWidth_of_le hw.le, decide_eq_false_iff_not, not_le]
  exact toNat_lt_half hw a

/-- Zero-extended operands have the unsigned order as signed words. -/
theorem slt_setWidth (hw : w < 32) (a b : BitVec w) :
    (a.setWidth 32).slt (b.setWidth 32) = a.ult b := by
  have hunsigned : ∀ c : BitVec w, (c.setWidth 32).toInt = c.toNat := by
    intro c
    rw [BitVec.toInt_eq_toNat_of_msb (msb_setWidth_eq_false hw c),
      BitVec.toNat_setWidth_of_le hw.le]
  rw [BitVec.slt_eq_decide, BitVec.ult_eq_decide, hunsigned, hunsigned, decide_eq_decide]
  exact Int.ofNat_lt

/-- The signed and the unsigned order agree on operands of one sign. -/
theorem ult_eq_slt_iff (a b : BitVec w) : a.ult b = a.slt b ↔ a.msb = b.msb := by
  rw [BitVec.slt_eq_ult]
  cases a.msb <;> cases b.msb <;> simp

end ZeroExtended

/-! ## Leaving the narrow width -/

theorem truth_inj {p q : Bool} : BinOp.truth p = BinOp.truth q ↔ p = q := by
  revert p q
  decide

namespace Opcode

variable {w : Nat}

/-- The sum of an operation does not fit in the width. -/
def carries (opcode : Opcode) (a b : BitVec w) : Bool :=
  match opcode with
  | .add => a.uaddOverflow b
  | .inc => a.uaddOverflow 1
  | _ => false

/-- The difference of an operation is negative. -/
def borrows (opcode : Opcode) (a b : BitVec w) : Bool :=
  match opcode with
  | .sub | .cmp => a.usubOverflow b
  | .dec => a.usubOverflow 1
  | .neg => BitVec.usubOverflow 0 a
  | _ => false

/-- When the result of an operation on zero-extended operands is zero and when it is
negative as a word, told by the same operation on the narrow operands. -/
structure Widens (opcode : Opcode) (a b : BitVec w) (wide : Outcome 32) (narrow : Outcome w) :
    Prop where
  zero : wide.result = 0 ↔ narrow.result = 0 ∧ ¬opcode.carries a b
  sign : wide.result.msb = opcode.borrows a b

section

variable {opcode : Opcode} {a b : BitVec w} {wide : Outcome 32} {narrow : Outcome w}

/-- The zero flag of the wide operation is that of the narrow one unless this carries to
zero. -/
theorem Widens.zero_flag_iff (h : opcode.Widens a b wide narrow) :
    BinOp.truth (wide.result == 0) = BinOp.truth (narrow.result == 0) ↔
      ¬(narrow.result = 0 ∧ opcode.carries a b) := by
  rw [truth_inj, Bool.eq_iff_iff, beq_iff_eq, beq_iff_eq, h.zero]
  tauto

theorem Widens.sign_flag_iff (h : opcode.Widens a b wide narrow) :
    BinOp.truth wide.result.msb = BinOp.truth narrow.result.msb ↔
      narrow.result.msb = opcode.borrows a b := by
  rw [truth_inj, h.sign]
  exact eq_comm

end

section

variable {opcode : Opcode} {a b c d : BitVec w} {wide narrow : StatusFlag → FlagAction}

theorem widens_sum (hw : w < 31) (hcarries : opcode.carries a b = c.uaddOverflow d)
    (hborrows : opcode.borrows a b = false) :
    opcode.Widens a b ⟨c.setWidth 32 + d.setWidth 32, wide⟩ ⟨c + d, narrow⟩ where
  zero := by
    rw [hcarries]
    exact add_setWidth_eq_zero_iff (by omega) c d
  sign := by
    rw [hborrows]
    exact msb_add_setWidth hw c d

theorem widens_difference (hw : w < 32) (hcarries : opcode.carries a b = false)
    (hborrows : opcode.borrows a b = c.usubOverflow d) :
    opcode.Widens a b ⟨c.setWidth 32 - d.setWidth 32, wide⟩ ⟨c - d, narrow⟩ where
  zero := by
    rw [hcarries, and_iff_left Bool.false_ne_true]
    exact sub_setWidth_eq_zero_iff hw c d
  sign := by
    rw [hborrows]
    exact msb_sub_setWidth hw c d

theorem widens_bits (hw : w < 32) (hcarries : opcode.carries a b = false)
    (hborrows : opcode.borrows a b = false) {result : Word} (hresult : result = c.setWidth 32) :
    opcode.Widens a b ⟨result, wide⟩ ⟨c, narrow⟩ where
  zero := by
    rw [hcarries, and_iff_left Bool.false_ne_true, hresult]
    exact setWidth_eq_zero_iff hw c
  sign := by
    rw [hborrows, hresult]
    exact msb_setWidth_eq_false hw c

end

theorem exists_widens {opcode : Opcode}
    (hopcode : opcode ∈ [add, sub, cmp, test, and, or, xor, inc, dec, neg]) (hpos : 0 < w)
    (hw : w < 31) (a b : BitVec w) :
    ∃ wide narrow, opcode.outcome? (a.setWidth 32) (b.setWidth 32) = some wide ∧
      opcode.outcome? a b = some narrow ∧ opcode.Widens a b wide narrow := by
  have hw' : w < 32 := by omega
  have hone : (1 : BitVec w).setWidth 32 = 1 := by
    rw [← BitVec.toNat_inj, BitVec.toNat_setWidth_of_le hw'.le]
    exact Nat.mod_eq_of_lt (Nat.one_lt_two_pow hpos.ne')
  simp only [List.mem_cons, List.not_mem_nil, or_false] at hopcode
  rcases hopcode with rfl | rfl | rfl | rfl | rfl | rfl | rfl | rfl | rfl | rfl
  · exact ⟨_, _, rfl, rfl, widens_sum hw rfl rfl⟩
  · exact ⟨_, _, rfl, rfl, widens_difference hw' rfl rfl⟩
  · exact ⟨_, _, rfl, rfl, widens_difference hw' rfl rfl⟩
  · exact ⟨_, _, rfl, rfl, widens_bits hw' rfl rfl BitVec.setWidth_and.symm⟩
  · exact ⟨_, _, rfl, rfl, widens_bits hw' rfl rfl BitVec.setWidth_and.symm⟩
  · exact ⟨_, _, rfl, rfl, widens_bits hw' rfl rfl BitVec.setWidth_or.symm⟩
  · exact ⟨_, _, rfl, rfl, widens_bits hw' rfl rfl BitVec.setWidth_xor.symm⟩
  · refine ⟨_, _, rfl, rfl, ?_⟩
    rw [← hone]
    exact widens_sum hw rfl rfl
  · refine ⟨_, _, rfl, rfl, ?_⟩
    rw [← hone]
    exact widens_difference hw' rfl rfl
  · have hneg : -a.setWidth 32 = (0 : BitVec w).setWidth 32 - a.setWidth 32 := by simp
    refine ⟨_, _, rfl, rfl, ?_⟩
    rw [hneg, ← BitVec.zero_sub a]
    exact widens_difference hw' rfl rfl

end Opcode

/-! ## Flags of lifted narrow operations -/

/-- Arithmetic and logic on the low `size` bytes of registers. -/
inductive ViewForm (size : Nat) (r s : Reg) : Opcode → List Operand → Prop
  | binary {opcode : Opcode} (hopcode : opcode ∈ [.add, .sub, .and, .or, .xor]) :
      ViewForm size r s opcode [.reg r size, .reg s size]
  | comparison {opcode : Opcode} (hopcode : opcode ∈ [.cmp, .test]) :
      ViewForm size r s opcode [.reg r size, .reg s size]
  | step {opcode : Opcode} (hopcode : opcode ∈ [.inc, .dec, .neg]) :
      ViewForm size r s opcode [.reg r size]

/-- The signed order of two operands that a condition asks for. -/
def Condition.signedOrder? {w : Nat} (x y : BitVec w) : Condition → Option Bool
  | l => some (x.slt y)
  | ge => some (y.sle x)
  | le => some (x.sle y)
  | g => some (y.slt x)
  | _ => none

namespace MachineState

/-- The low `size` bytes of a register. -/
def view (machine : MachineState) (r : Reg) (size : Nat) : BitVec (8 * size) :=
  (machine.reg r).setWidth (8 * size)

end MachineState

theorem ViewForm.exists_outcome {size : Nat} {r s : Reg} {opcode : Opcode} {operands : List Operand}
    (hform : ViewForm size r s opcode operands) (world : World) (machine : MachineState) :
    ∃ effect outcome, opcode.effect? operands = some effect ∧
      opcode.outcome? ((Operand.reg r size).value.eval (machine.valuation world))
        ((Operand.reg s size).value.eval (machine.valuation world)) = some outcome ∧
      (machine.exec world effect).symbol (.flag .z) = BinOp.truth (outcome.result == 0) ∧
      (machine.exec world effect).symbol (.flag .s) = BinOp.truth outcome.result.msb := by
  cases hform with
  | binary hopcode =>
      obtain ⟨result, flags, outcome, heffect, houtcome, hshape, -⟩ :=
        Opcode.exists_shape_binary hopcode (.reg r size) (.reg s size) (machine.valuation world)
      refine ⟨_, outcome, heffect, houtcome, ?_⟩
      rw [machine.symbol_exec_assign_append, machine.symbol_exec_assign_append]
      exact machine.symbol_exec_shape world hshape
  | comparison hopcode =>
      obtain ⟨result, flags, outcome, heffect, houtcome, hshape, -⟩ :=
        Opcode.exists_shape_compare hopcode (.reg r size) (.reg s size) (machine.valuation world)
      exact ⟨_, outcome, heffect, houtcome, machine.symbol_exec_shape world hshape⟩
  | step hopcode =>
      obtain ⟨result, flags, outcome, heffect, houtcome, hshape, -⟩ :=
        Opcode.exists_shape_unary hopcode (.reg r size) (machine.valuation world)
          ((Operand.reg s size).value.eval (machine.valuation world))
      refine ⟨_, outcome, heffect, houtcome, ?_⟩
      rw [machine.symbol_exec_assign_append, machine.symbol_exec_assign_append]
      exact machine.symbol_exec_shape world hshape

theorem ViewForm.mem {size : Nat} {r s : Reg} {opcode : Opcode} {operands : List Operand}
    (hform : ViewForm size r s opcode operands) :
    opcode ∈ [.add, .sub, .cmp, .test, .and, .or, .xor, .inc, .dec, .neg] := by
  cases hform with
  | binary hopcode | comparison hopcode | step hopcode =>
      simp only [List.mem_cons, List.not_mem_nil, or_false] at hopcode ⊢
      tauto

theorem ViewForm.operands_eq {size : Nat} {r s : Reg} {opcode : Opcode} {operands : List Operand}
    (hform : ViewForm size r s opcode operands) (hopcode : opcode ∈ [.cmp, .sub]) :
    operands = [.reg r size, .reg s size] := by
  cases hform with
  | binary | comparison => rfl
  | step hstep => rcases List.mem_pair.mp hopcode with rfl | rfl <;> simp at hstep

/-- On zero-extended operands a signed condition asks for the unsigned order, which is
the signed one for operands of one sign. -/
theorem Condition.relation?_setWidth {w : Nat} (hw : w < 32) {a b : BitVec w} {cc : Condition}
    {holds : Bool} (hcc : cc.signedOrder? a b = some holds) :
    ∃ lifted, cc.relation? (a.setWidth 32) (b.setWidth 32) = some lifted ∧
      (lifted = holds ↔ a.msb = b.msb) := by
  have hless := ult_eq_slt_iff a b
  have hgreater := (ult_eq_slt_iff b a).trans eq_comm
  cases cc <;> simp only [signedOrder?, Option.some.injEq, reduceCtorEq] at hcc <;> subst hcc
  case l =>
      refine ⟨_, rfl, ?_⟩
      rwa [slt_setWidth hw]
  case ge =>
      refine ⟨_, rfl, ?_⟩
      rwa [BitVec.sle_eq_not_slt, slt_setWidth hw, BitVec.sle_eq_not_slt, Bool.not_inj_iff]
  case le =>
      refine ⟨_, rfl, ?_⟩
      rwa [BitVec.sle_eq_not_slt, slt_setWidth hw, BitVec.sle_eq_not_slt, Bool.not_inj_iff]
  case g =>
      refine ⟨_, rfl, ?_⟩
      rwa [slt_setWidth hw]

/-- After a comparison or subtraction of views, the recovered condition relates the
zero-extended operands. -/
theorem Condition.eval_bound_view (world : World) (machine : MachineState) {insn : Instruction}
    (hlifted : insn.Lifted) (hopcode : insn.opcode ∈ [Opcode.cmp, .sub]) {size : Nat}
    (hsize : size = 1 ∨ size = 2) {r s : Reg}
    (hoperands : insn.operands = [.reg r size, .reg s size]) {cc : Condition} {holds : Bool}
    (hcc : cc.relation? ((machine.view r size).setWidth 32) ((machine.view s size).setWidth 32) =
      some holds) :
    (cc.toExpr.bind insn.registerEffect).reduce.eval (machine.valuation world) =
      BinOp.truth holds := by
  have hstatus : insn.opcode.statusFlags?
      ((Operand.reg r size).value.eval (machine.valuation world))
      ((Operand.reg s size).value.eval (machine.valuation world)) =
        some (.ofSub ((machine.view r size).setWidth 32) ((machine.view s size).setWidth 32)) := by
    rw [Operand.eval_value_view world machine hsize, Operand.eval_value_view world machine hsize]
    rcases List.mem_pair.mp hopcode with h | h <;> rw [h] <;> rfl
  obtain ⟨effect, heffect, hleaves⟩ := Opcode.leaves_effect? hstatus
  have hinsn : insn.effect = effect := by
    rw [hlifted.effect_eq, hoperands, heffect, Option.getD_some]
  exact eval_bound hlifted (hinsn ▸ hleaves) (test?_ofSub cc _ _ ▸ hcc)

/-- When the lifted flags of a narrow operation have the width of its operands. The zero
flag is wrong for a sum that carries and leaves zero. The sign flag is right if the sign of
the narrow result is the borrow. Signed conditions after a comparison or subtraction are
right for operands of one sign. -/
theorem Instruction.narrow_flags_iff (world : World) (machine : MachineState) {insn : Instruction}
    (hlifted : insn.Lifted) {size : Nat} (hsize : size = 1 ∨ size = 2) {r s : Reg}
    (hform : ViewForm size r s insn.opcode insn.operands) :
    let a := machine.view r size
    let b := machine.view s size
    let after := machine.exec world insn.effect
    ∃ outcome, insn.opcode.effect? insn.operands = some insn.effect ∧
      insn.opcode.outcome? a b = some outcome ∧
      (after.symbol (.flag .z) = BinOp.truth (outcome.result == 0) ↔
        ¬(outcome.result = 0 ∧ insn.opcode.carries a b)) ∧
      (after.symbol (.flag .s) = BinOp.truth outcome.result.msb ↔
        outcome.result.msb = insn.opcode.borrows a b) ∧
      (insn.opcode ∈ [Opcode.cmp, .sub] → ∀ cc holds, Condition.signedOrder? a b cc = some holds →
        ((cc.toExpr.bind insn.registerEffect).reduce.eval (machine.valuation world) =
          BinOp.truth holds ↔ a.msb = b.msb)) := by
  intro a b after
  have hw : 8 * size < 31 := by omega
  obtain ⟨effect, lifted, heffect, hlift, hzero, hsign⟩ := hform.exists_outcome world machine
  obtain ⟨wide, narrow, hwide, hnarrow, hwidens⟩ :=
    Opcode.exists_widens hform.mem (by omega : 0 < 8 * size) hw a b
  rw [Operand.eval_value_view world machine hsize, Operand.eval_value_view world machine hsize]
    at hlift
  obtain rfl : lifted = wide := Option.some.inj (hlift.symm.trans hwide)
  have hinsn : insn.effect = effect := by
    rw [hlifted.effect_eq, heffect, Option.getD_some]
  refine ⟨narrow, hinsn ▸ heffect, hnarrow, ?_, ?_, ?_⟩
  · rw [← hwidens.zero_flag_iff, ← hzero, ← hinsn]
  · rw [← hwidens.sign_flag_iff, ← hsign, ← hinsn]
  · intro hopcode cc holds hcc
    obtain ⟨value, hvalue, hagree⟩ := Condition.relation?_setWidth (by omega) hcc
    rw [Condition.eval_bound_view world machine hlifted hopcode hsize (hform.operands_eq hopcode)
      hvalue, truth_inj]
    exact hagree

/-! ### The sign of a byte -/

namespace SignByte

def machine : MachineState := .only .eax 0x80 0

/-- The comparison `cmp al, cl`. -/
def compare : Instruction := .ofMnemonic 0 "CMP" [.reg .eax 1, .reg .ecx 1]

theorem opcode_compare : compare.opcode = .cmp := by decide +kernel

theorem lifted_compare : compare.Lifted := rfl

/-- The byte `-128` is less than zero, and the recovered condition says that it is not. -/
theorem less_than_zero_lost :
    (machine.view .eax 1).slt (machine.view .ecx 1) = true ∧
      (Condition.l.toExpr.bind compare.registerEffect).reduce.eval (machine.valuation .silent) =
        0 := by
  have hopcode : compare.opcode ∈ [Opcode.cmp, .sub] := by
    rw [opcode_compare]
    decide
  have hrelation : Condition.l.relation? ((machine.view .eax 1).setWidth 32)
      ((machine.view .ecx 1).setWidth 32) = some false := by decide
  refine ⟨by decide, ?_⟩
  exact Condition.eval_bound_view .silent machine lifted_compare hopcode (Or.inl rfl) rfl hrelation

/-- The zero flag of the comparison is right, the sign flag is not. -/
theorem narrow_flags_compare :
    ViewForm 1 .eax .ecx compare.opcode compare.operands ∧
      (machine.exec .silent compare.effect).symbol (.flag .z) = 0 ∧
      (machine.exec .silent compare.effect).symbol (.flag .s) ≠ 1 := by
  have hform : ViewForm 1 .eax .ecx compare.opcode compare.operands := by
    rw [opcode_compare]
    exact .comparison (by decide)
  obtain ⟨outcome, -, houtcome, hzero, hsign, -⟩ :=
    Instruction.narrow_flags_iff .silent machine lifted_compare (Or.inl rfl) hform
  rw [opcode_compare] at houtcome hzero hsign
  cases houtcome
  exact ⟨hform, hzero.mpr (by decide), mt hsign.mp (by decide)⟩

end SignByte

end Uncompile
