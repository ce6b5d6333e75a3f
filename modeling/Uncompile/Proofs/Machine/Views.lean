import Uncompile.Proofs.Machine.Processor

/-!
# Reading and writing operands

Lifted effects read a narrow view of a register by masking it, widen it by masking
or by flipping and subtracting its sign bit, and write it by joining the masked
value with the rest of the register. This file says what the masks do to the bits,
and that operands are read and written as the processor does it.
-/

namespace Uncompile

/-! ## Low bits of a word -/

/-- The word with ones in its low `w` bits. -/
def lowMask (w : Nat) : Word := (BitVec.allOnes w).setWidth 32

theorem and_lowMask (x : Word) (w : Nat) : x &&& lowMask w = (x.setWidth w).setWidth 32 := by
  apply BitVec.eq_of_getLsbD_eq
  intro i hi
  simp [lowMask, hi, Bool.and_comm]

theorem toWord_sizeMask {size : Nat} (hsize : size = 1 ∨ size = 2) :
    toWord (sizeMask size) = lowMask (8 * size) := by
  rcases hsize with rfl | rfl <;> decide

theorem toWord_restMask {size : Nat} (hsize : size = 1 ∨ size = 2) :
    toWord (mask32 - sizeMask size) = ~~~lowMask (8 * size) := by
  rcases hsize with rfl | rfl <;> decide

/-- The word whose low `w` bits are those of `low` and whose other bits are those of
`rest`. -/
def joinLow (rest low : Word) (w : Nat) : Word := rest &&& ~~~lowMask w ||| low &&& lowMask w

theorem getLsbD_joinLow (rest low : Word) (w i : Nat) :
    (joinLow rest low w).getLsbD i = if i < w then low.getLsbD i else rest.getLsbD i := by
  by_cases hi : i < 32
  · by_cases hlow : i < w <;> simp [joinLow, lowMask, hi, hlow]
  · simp [joinLow, BitVec.getLsbD_of_ge, Nat.le_of_not_lt hi]

theorem setWidth_joinLow (rest low : Word) (w : Nat) :
    (joinLow rest low w).setWidth w = low.setWidth w := by
  apply BitVec.eq_of_getLsbD_eq
  intro i hi
  rw [BitVec.getLsbD_setWidth, BitVec.getLsbD_setWidth, getLsbD_joinLow, if_pos hi]

theorem ushiftRight_joinLow (rest low : Word) (w : Nat) :
    joinLow rest low w >>> w = rest >>> w := by
  apply BitVec.eq_of_getLsbD_eq
  intro i hi
  rw [BitVec.getLsbD_ushiftRight, BitVec.getLsbD_ushiftRight, getLsbD_joinLow,
    if_neg (Nat.not_lt.mpr (Nat.le_add_right w i))]

/-! ## Sign extension -/

theorem xor_eq_add_of_and_eq_zero {x y : Word} (h : x &&& y = 0) : x ^^^ y = x + y := by
  rw [BitVec.add_eq_or_of_and_eq_zero x y h]
  apply BitVec.eq_of_getLsbD_eq
  intro i hi
  have hbit : (x.getLsbD i && y.getLsbD i) = false := by
    rw [← BitVec.getLsbD_and, h]
    exact BitVec.getLsbD_zero
  rw [BitVec.getLsbD_xor, BitVec.getLsbD_or]
  cases hx : x.getLsbD i <;> cases hy : y.getLsbD i <;> simp_all

/-- Taking the weight of the sign bit away from a negative value twice extends it. -/
theorem sub_twoPow_eq_signExtend {w : Nat} (hpos : 0 < w) (hw : w ≤ 32) {b : BitVec w}
    (hmsb : b.msb = true) {y : Word} (hy : b.setWidth 32 = y + BitVec.twoPow 32 (w - 1)) :
    y - BitVec.twoPow 32 (w - 1) = b.signExtend 32 := by
  have hhalf : 2 ^ w = 2 * 2 ^ (w - 1) := by
    rw [← Nat.pow_succ', Nat.succ_eq_add_one, Nat.sub_add_cancel hpos]
  have hle : 2 ^ w ≤ 2 ^ 32 := Nat.pow_le_pow_right (by decide) hw
  have hlow : 2 ^ (w - 1) ≤ b.toNat := by simpa [BitVec.msb_eq_decide] using hmsb
  have hweight : (BitVec.twoPow 32 (w - 1)).toNat = 2 ^ (w - 1) := by
    rw [BitVec.toNat_twoPow, Nat.mod_eq_of_lt (by omega)]
  have hvalue := congrArg BitVec.toNat hy
  rw [BitVec.toNat_setWidth_of_le hw, BitVec.toNat_add, hweight] at hvalue
  apply BitVec.eq_of_toNat_eq
  rw [BitVec.toNat_signExtend, BitVec.toNat_setWidth_of_le hw, hmsb, if_pos rfl,
    BitVec.toNat_sub, hweight]
  have hb := b.isLt
  have hy' := y.isLt
  omega

/-- Flipping the sign bit of a narrow value and subtracting its weight repeats the bit
upward. -/
theorem xor_sub_twoPow {w : Nat} (hpos : 0 < w) (hw : w ≤ 32) (b : BitVec w) :
    (b.setWidth 32 ^^^ BitVec.twoPow 32 (w - 1)) - BitVec.twoPow 32 (w - 1) =
      b.signExtend 32 := by
  have hbit : (b.setWidth 32).getLsbD (w - 1) = b.msb := by
    rw [BitVec.getLsbD_setWidth, BitVec.msb_eq_getLsbD_last, decide_eq_true (by omega),
      Bool.true_and]
  cases hmsb : b.msb with
  | false =>
      -- the bit is clear, so flipping it adds its weight
      have hand : b.setWidth 32 &&& BitVec.twoPow 32 (w - 1) = 0 := by
        rw [BitVec.and_twoPow, hbit, hmsb]
        rfl
      rw [xor_eq_add_of_and_eq_zero hand, BitVec.signExtend_eq_setWidth_of_msb_false hmsb,
        BitVec.add_sub_cancel]
  | true =>
      -- the bit is set, so flipping it takes its weight away
      have hpow : (BitVec.twoPow 32 (w - 1)).getLsbD (w - 1) = true := by
        rw [BitVec.getLsbD_twoPow, decide_eq_true (by omega), decide_eq_true rfl]
        rfl
      have hand : (b.setWidth 32 ^^^ BitVec.twoPow 32 (w - 1)) &&& BitVec.twoPow 32 (w - 1) =
          0 := by
        rw [BitVec.and_twoPow, BitVec.getLsbD_xor, hbit, hmsb, hpow]
        rfl
      have hsum := xor_eq_add_of_and_eq_zero hand
      rw [BitVec.xor_assoc, BitVec.xor_self, BitVec.xor_zero] at hsum
      exact sub_twoPow_eq_signExtend hpos hw hmsb hsum

/-! ## Reading -/

namespace Operand

variable (world : World) (machine : MachineState)

theorem eval_value_of_isWide {operand : Operand} (hwide : operand.isWide) :
    operand.value.eval (machine.valuation world) = operand.word machine := by
  cases operand with
  | special r => rfl
  | reg r size => exact eval_value world machine hwide
  | imm value => exact eval_value world machine hwide
  | mem m => exact eval_value world machine hwide

/-- A view of a register is read as its low bits. -/
theorem eval_value_view {size : Nat} (hsize : size = 1 ∨ size = 2) (r : Reg) :
    (reg r size).value.eval (machine.valuation world) =
      ((machine.reg r).setWidth (8 * size)).setWidth 32 := by
  have hnarrow : ¬4 ≤ size := by omega
  rw [← and_lowMask, ← toWord_sizeMask hsize]
  simp only [value, hnarrow, if_false]
  rfl

theorem setWidth_eval_value {operand : Operand} (hnarrow : operand.isNarrow) :
    (operand.value.eval (machine.valuation world)).setWidth (8 * operand.size) =
      operand.bits machine := by
  cases operand with
  | reg r size =>
      have hsize : size = 1 ∨ size = 2 := by simpa [isNarrow] using hnarrow
      have hle : 8 * size ≤ 32 := by omega
      rw [eval_value_view world machine hsize]
      exact (BitVec.setWidth_setWidth_of_le _ hle).trans (BitVec.setWidth_eq _)
  | special r => exact absurd hnarrow Bool.false_ne_true
  | imm value => exact absurd hnarrow Bool.false_ne_true
  | mem m =>
      exact congrArg (fun address => (machine.memory.load address m.size).setWidth (8 * m.size))
        (m.eval_address world machine)

theorem size_of_isNarrow {operand : Operand} (hnarrow : operand.isNarrow) :
    operand.size = 1 ∨ operand.size = 2 := by
  cases operand with
  | reg r size => simpa [isNarrow, Operand.size] using hnarrow
  | special r => exact absurd hnarrow Bool.false_ne_true
  | imm value => exact absurd hnarrow Bool.false_ne_true
  | mem m => simpa [isNarrow, Operand.size] using hnarrow

/-- The masked source of an extension holds the bits of the operand. -/
theorem eval_masked {operand : Operand} (hnarrow : operand.isNarrow) :
    (Expr.binary .and operand.value (.const (sizeMask operand.size))).eval
        (machine.valuation world) = (operand.bits machine).setWidth 32 := by
  have hmask := toWord_sizeMask (size_of_isNarrow hnarrow)
  rw [← setWidth_eval_value world machine hnarrow, ← and_lowMask, ← hmask]
  rfl

theorem eval_extend_unsigned {operand : Operand} (hnarrow : operand.isNarrow) :
    (Lift.extend operand false).eval (machine.valuation world) =
      (operand.bits machine).setWidth 32 := by
  have hsize := size_of_isNarrow hnarrow
  have hsmall : ¬4 ≤ operand.size := by omega
  simp only [Lift.extend, hsmall, if_false]
  exact eval_masked world machine hnarrow

theorem eval_extend_signed {operand : Operand} (hnarrow : operand.isNarrow) :
    (Lift.extend operand true).eval (machine.valuation world) =
      (operand.bits machine).signExtend 32 := by
  have hsize := size_of_isNarrow hnarrow
  have hsmall : ¬4 ≤ operand.size := by omega
  have hsign : toWord ((sizeMask operand.size + 1) / 2) =
      BitVec.twoPow 32 (8 * operand.size - 1) := by
    rcases hsize with h | h <;> rw [h] <;> decide
  rw [← xor_sub_twoPow (by omega) (by omega), ← hsign, ← eval_masked world machine hnarrow]
  simp only [Lift.extend, hsmall, if_false, if_true]
  rfl

/-- However wide the operand, its low five bits are read. -/
theorem toNat_eval_value_mod (count : Operand) :
    (count.value.eval (machine.valuation world)).toNat % 32 = count.shiftCount machine := by
  cases count with
  | special r => rfl
  | imm value => rfl
  | mem m =>
      exact congrArg (fun address => (machine.memory.load address m.size).toNat % 32)
        (m.eval_address world machine)
  | reg r size =>
      by_cases hwide : 4 ≤ size
      · simp only [value, hwide, if_true]
        rfl
      · have hmask : (toWord (sizeMask size)).toNat % 2 ^ 5 = 2 ^ 5 - 1 := by
          simp only [sizeMask]
          split
          · decide
          · split <;> decide
        simp only [value, hwide, if_false, Expr.eval, BinOp.value, BinOp.compute?,
          Option.getD_some, BitVec.toNat_and]
        show _ % 2 ^ 5 = _ % 2 ^ 5
        rw [Nat.and_mod_two_pow, hmask, Nat.and_two_pow_sub_one_eq_mod, Nat.mod_mod]
        rfl

end Operand

/-! ## Writing -/

namespace MachineState

variable (world : World) (machine : MachineState)

@[simp] theorem reg_setReg (r : Reg) (word : Word) : (machine.setReg r word).reg r = word := by
  simp [reg, setReg, setSymbol]

theorem setReg_setReg (r : Reg) (first second : Word) :
    (machine.setReg r first).setReg r second = machine.setReg r second := by
  simp [setReg, setSymbol]

theorem setReg_comm {r s : Reg} (hne : r ≠ s) (first second : Word) :
    (machine.setReg r first).setReg s second = (machine.setReg s second).setReg r first := by
  have hsymbol : Symbol.reg r ≠ .reg s := fun h => hne (Symbol.reg.inj h)
  simp only [setReg, setSymbol, Function.update_comm hsymbol]

theorem exec_assign {target : Operand} (hwide : target.isWide) (value : Expr) :
    machine.exec world (target.assign value) =
      machine.put target (value.eval (machine.valuation world)) := by
  cases target with
  | reg r size =>
      obtain rfl : size = 4 := by
        simpa [Operand.isWide, Operand.isSystem, Operand.isWord] using hwide
      rfl
  | special r => rfl
  | imm k => rfl
  | mem m =>
      obtain hsize : m.size = 4 := by
        simpa [Operand.isWide, Operand.isSystem, Operand.isWord] using hwide
      rw [put, storeWord, ← m.eval_address world machine, ← hsize]
      rfl

/-- Writing a view joins the written bits with the rest of the register. -/
theorem exec_assign_view {size : Nat} (hsize : size = 1 ∨ size = 2) (r : Reg) (value : Expr) :
    machine.exec world ((Operand.reg r size).assign value) =
      machine.setReg r
        (joinLow (machine.reg r) (value.eval (machine.valuation world)) (8 * size)) := by
  have hnarrow : ¬4 ≤ size := by omega
  rw [joinLow, ← toWord_restMask hsize, ← toWord_sizeMask hsize]
  simp only [Operand.assign, Operand.assign?, hnarrow, if_false]
  rfl

theorem viewWritten_exec_assign {size : Nat} (hsize : size = 1 ∨ size = 2) (r : Reg)
    (value : Expr) :
    machine.ViewWritten (machine.exec world ((Operand.reg r size).assign value)) r size
      (value.eval (machine.valuation world)) := by
  rw [exec_assign_view world machine hsize]
  refine ⟨?_, ?_, fun symbol hsymbol => Function.update_of_ne hsymbol _ _, rfl⟩
  · rw [reg_setReg, setWidth_joinLow]
  · rw [reg_setReg, ushiftRight_joinLow]

/-- Reading a written view gives the low bits of what was written. -/
theorem ViewWritten.eval_value {machine after : MachineState} {r : Reg} {size : Nat} {value : Word}
    (h : machine.ViewWritten after r size value) (hsize : size = 1 ∨ size = 2) :
    (Operand.reg r size).value.eval (after.valuation world) =
      (value.setWidth (8 * size)).setWidth 32 := by
  rw [Operand.eval_value_view world after hsize, h.low]

end MachineState

end Uncompile
