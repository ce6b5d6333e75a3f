import Uncompile.Machine.Condition
import Uncompile.Proofs.Emission.Values
import Uncompile.Proofs.Expr.Dependency
import Uncompile.Proofs.Program.Rewind

/-!
# Branch conditions

A conditional jump tests status flags that an earlier instruction left. This file
says which flags the comparing and the bitwise instructions leave, which flags
each condition tests, and how the tested flags order the operands. The recovered
formula of a condition, with the lifted flags in place and reduced, has the value
of that test in every state.
-/

namespace Uncompile

/-! ## Status flags -/

structure StatusFlags where
  carry : Bool
  zero : Bool
  sign : Bool
  overflow : Bool

namespace StatusFlags

variable {w : Nat}

/-- The flags of the subtraction `a - b`: a borrow, a zero result, the sign of the
result, and a difference outside the signed range. -/
def ofSub (a b : BitVec w) : StatusFlags where
  carry := a.usubOverflow b
  zero := a - b == 0
  sign := (a - b).msb
  overflow := a.ssubOverflow b

/-- The flags of a bitwise operation with the given result. -/
def ofResult (result : BitVec w) : StatusFlags where
  carry := false
  zero := result == 0
  sign := result.msb
  overflow := false

/-- A bitwise operation leaves the flags of comparing its result with zero. -/
theorem ofResult_eq_ofSub (result : Word) : ofResult result = ofSub result 0 := by
  have hoverflow : result.ssubOverflow 0#32 = false := by
    have hlow := BitVec.le_toInt result
    have hhigh := BitVec.toInt_lt (x := result)
    simp only [BitVec.ssubOverflow, BitVec.toInt_zero, Bool.or_eq_false_iff,
      decide_eq_false_iff_not]
    omega
  simp [ofResult, ofSub, hoverflow, BitVec.usubOverflow]

end StatusFlags

/-- The operands that the flags of an instruction compare: those of a subtraction,
or the result of a bitwise operation and zero. -/
def Opcode.compared? (opcode : Opcode) (a b : Word) : Option (Word × Word) :=
  match opcode with
  | .cmp | .sub => some (a, b)
  | .test | .and => some (a &&& b, 0)
  | .or => some (a ||| b, 0)
  | .xor => some (a ^^^ b, 0)
  | _ => none

theorem Opcode.exists_compared {opcode : Opcode}
    (hopcode : opcode ∈ [cmp, sub, test, and, or, xor]) (a b : Word) :
    ∃ words, opcode.compared? a b = some words := by
  simp only [List.mem_cons, List.not_mem_nil, or_false] at hopcode
  rcases hopcode with rfl | rfl | rfl | rfl | rfl | rfl <;> exact ⟨_, rfl⟩

/-- The flags that an instruction on two words leaves. -/
def Opcode.statusFlags? (opcode : Opcode) (a b : Word) : Option StatusFlags :=
  match opcode with
  | .cmp | .sub => some (.ofSub a b)
  | .test | .and => some (.ofResult (a &&& b))
  | .or => some (.ofResult (a ||| b))
  | .xor => some (.ofResult (a ^^^ b))
  | _ => none

theorem Opcode.statusFlags?_eq (opcode : Opcode) (a b : Word) :
    opcode.statusFlags? a b = (opcode.compared? a b).map fun (x, y) => .ofSub x y := by
  cases opcode <;> simp [statusFlags?, compared?, StatusFlags.ofResult_eq_ofSub]

namespace Condition

/-- What a condition tests; parity and the counter are no status flags here. -/
def test? (flags : StatusFlags) : Condition → Option Bool
  | o => some flags.overflow
  | no => some !flags.overflow
  | b => some flags.carry
  | ae => some !flags.carry
  | z => some flags.zero
  | nz => some !flags.zero
  | be => some (flags.carry || flags.zero)
  | a => some (!flags.carry && !flags.zero)
  | s => some flags.sign
  | ns => some !flags.sign
  | l => some (flags.sign != flags.overflow)
  | ge => some (flags.sign == flags.overflow)
  | le => some (flags.zero || flags.sign != flags.overflow)
  | g => some (!flags.zero && flags.sign == flags.overflow)
  | p | np | ecxz | cxz => none

theorem exists_test {cc : Condition} (hcc : cc ∉ [p, np, ecxz, cxz]) (flags : StatusFlags) :
    ∃ holds, cc.test? flags = some holds := by
  cases cc with
  | p | np | ecxz | cxz => simp at hcc
  | _ => exact ⟨_, rfl⟩

/-- What a condition says about two compared words: their unsigned or signed
order, whether they are equal, or the sign and the overflow of their difference. -/
def relation? (x y : Word) : Condition → Option Bool
  | o => some (x.ssubOverflow y)
  | no => some !x.ssubOverflow y
  | b => some (x.ult y)
  | ae => some (y.ule x)
  | z => some (x == y)
  | nz => some (x != y)
  | be => some (x.ule y)
  | a => some (y.ult x)
  | s => some (x - y).msb
  | ns => some !(x - y).msb
  | l => some (x.slt y)
  | ge => some (y.sle x)
  | le => some (x.sle y)
  | g => some (y.slt x)
  | p | np | ecxz | cxz => none

end Condition

/-! ## The order of compared words -/

theorem sub_beq_zero (x y : Word) : (x - y == 0) = (x == y) := by
  rw [Bool.eq_iff_iff, beq_iff_eq, beq_iff_eq]
  exact sub_eq_zero

/-- The sign of a difference is wrong exactly if it overflows. -/
theorem msb_sub (x y : Word) : (x - y).msb = (x.slt y != x.ssubOverflow y) := by
  have hx := BitVec.le_toInt x
  have hx' := BitVec.toInt_lt (x := x)
  have hy := BitVec.le_toInt y
  have hy' := BitVec.toInt_lt (x := y)
  rw [BitVec.msb_eq_toInt, BitVec.toInt_sub, BitVec.slt_eq_decide, BitVec.ssubOverflow,
    ← Bool.decide_or, Bool.eq_iff_iff, bne_iff_ne, ne_eq, decide_eq_decide, decide_eq_true_eq,
    Int.bmod_def]
  omega

theorem ule_eq_ult_or (x y : Word) : x.ule y = (x.ult y || x == y) := by
  rw [Bool.eq_iff_iff, Bool.or_eq_true, beq_iff_eq, BitVec.ule_iff_toNat_le,
    BitVec.ult_iff_toNat_lt, ← BitVec.toNat_inj]
  exact le_iff_lt_or_eq

theorem sle_eq_slt_or (x y : Word) : x.sle y = (x.slt y || x == y) := by
  rw [Bool.eq_iff_iff, Bool.or_eq_true, beq_iff_eq, BitVec.sle_iff_toInt_le,
    BitVec.slt_iff_toInt_lt, ← BitVec.toInt_inj]
  exact le_iff_lt_or_eq

/-- Testing the flags of a subtraction compares its operands. -/
theorem Condition.test?_ofSub (cc : Condition) (x y : Word) :
    cc.test? (.ofSub x y) = cc.relation? x y := by
  have hborrow : x.usubOverflow y = x.ult y := rfl
  have hless : ((x - y).msb != x.ssubOverflow y) = x.slt y := by
    rw [msb_sub, Bool.bne_assoc, bne_self_eq_false, Bool.bne_false]
  have hnotLess : ((x - y).msb == x.ssubOverflow y) = !x.slt y := by
    rw [← hless, bne, Bool.not_not]
  have hnotEqual : (x != y) = !(x == y) := rfl
  have hule : y.ule x = !x.ult y := BitVec.ule_eq_not_ult y x
  have hult : y.ult x = (!x.ult y && !(x == y)) := by
    rw [← Bool.not_or, ← ule_eq_ult_or, BitVec.ule_eq_not_ult, Bool.not_not]
  have hsle : y.sle x = !x.slt y := BitVec.sle_eq_not_slt
  have hslt : y.slt x = (!(x == y) && !x.slt y) := by
    rw [Bool.and_comm, ← Bool.not_or, ← sle_eq_slt_or, BitVec.sle_eq_not_slt, Bool.not_not]
  cases cc <;>
    simp only [test?, relation?, StatusFlags.ofSub, sub_beq_zero, hborrow, hless, hnotLess, hule,
      hult, hsle, hslt, hnotEqual, ule_eq_ult_or x y, sle_eq_slt_or x y, Bool.or_comm]

/-! ## Operands of 32 bits -/

/-- The address that the processor forms from base, scaled index and displacement. -/
def MemOperand.effectiveAddress (machine : MachineState) (m : MemOperand) : Word :=
  (m.base.map fun r => machine.symbol (.reg r)).getD 0 +
    (m.index.map fun r => machine.symbol (.reg r)).getD 0 * BitVec.ofNat 32 m.scale +
      BitVec.ofInt 32 m.disp

namespace Operand

/-- Whole registers, words of memory and immediates. -/
def isWord : Operand → Bool
  | reg _ size => size = 4
  | special _ => false
  | imm _ => true
  | mem m => m.size = 4

/-- The word that an operand holds. -/
def word (machine : MachineState) : Operand → Word
  | reg r _ => machine.symbol (.reg r)
  | special r => machine.symbol (.special r)
  | imm value => BitVec.ofInt 32 value
  | mem m => machine.memory.load (m.effectiveAddress machine) m.size

end Operand

namespace Expr

/-- The symbols of a substituted expression come from the values, or were left. -/
theorem references_bind {binding : Binding} {e : Expr} {symbol : Symbol}
    (h : (e.bind binding).references symbol) :
    (∃ bound value, binding.get? bound = some value ∧ value.references symbol) ∨
      (e.references symbol ∧ binding.get? symbol = none) := by
  rcases references_bind_iff.mp h with hleft | ⟨bound, _, value, hvalue⟩
  · exact Or.inr hleft
  · exact Or.inl ⟨bound, value, hvalue⟩

end Expr

/-- The address of an operand is the one that the processor forms. -/
theorem MemOperand.eval_address (world : World) (machine : MachineState) (m : MemOperand) :
    m.address.eval (machine.valuation world) = m.effectiveAddress machine := by
  unfold MemOperand.address MemOperand.effectiveAddress
  cases m.base with
  | none =>
      cases m.index with
      | none =>
          rw [Expr.eval_reduce_of_traced (Expr.arithmetic_const _).traced]
          simp [Expr.eval, toWord]
      | some index =>
          rw [Expr.eval_reduce_of_traced (m.arithmetic_index index).traced]
          simp [Expr.add, Expr.reg, Expr.eval, BinOp.value, BinOp.compute?,
            MachineState.valuation, toWord]
  | some base =>
      cases m.index with
      | none =>
          have hsum : (Expr.add (.reg base) (.const m.disp)).Arithmetic :=
            (Expr.arithmetic_reg base).binary (Expr.arithmetic_const _) rfl
          rw [Expr.eval_reduce_of_traced hsum.traced]
          simp [Expr.add, Expr.reg, Expr.eval, BinOp.value, BinOp.compute?,
            MachineState.valuation, toWord]
      | some index =>
          have hsum : (Expr.add (.reg base) (Expr.add (.binary .mul (.reg index)
              (.const m.scale)) (.const m.disp))).Arithmetic :=
            (Expr.arithmetic_reg base).binary (m.arithmetic_index index) rfl
          rw [Expr.eval_reduce_of_traced hsum.traced]
          simp [Expr.add, Expr.reg, Expr.eval, BinOp.value, BinOp.compute?,
            MachineState.valuation, toWord, BitVec.add_assoc]

theorem Operand.eval_value (world : World) (machine : MachineState) {operand : Operand}
    (hword : operand.isWord) :
    operand.value.eval (machine.valuation world) = operand.word machine := by
  cases operand with
  | reg r size =>
      obtain rfl : size = 4 := by simpa [isWord] using hword
      rfl
  | special r => rfl
  | imm value => rfl
  | mem m => exact congrArg (machine.memory.load · m.size) (m.eval_address world machine)

/-! ## Lifted flags -/

/-- The flags of a valuation are the bits of the given ones. -/
structure Valuation.Shows (v : Valuation) (flags : StatusFlags) : Prop where
  carry : v.symbol (.flag .c) = BinOp.truth flags.carry
  zero : v.symbol (.flag .z) = BinOp.truth flags.zero
  sign : v.symbol (.flag .s) = BinOp.truth flags.sign
  overflow : v.symbol (.flag .o) = BinOp.truth flags.overflow

/-- The formula of a condition tests the flags that it is given. -/
theorem Condition.eval_toExpr {v : Valuation} {flags : StatusFlags} (h : v.Shows flags)
    {cc : Condition} {holds : Bool} (hcc : cc.test? flags = some holds) :
    cc.toExpr.eval v = BinOp.truth holds := by
  have hbeq : ∀ p q : Bool, (BinOp.truth p == BinOp.truth q) = (p == q) := by decide
  have hbne : ∀ p q : Bool, (BinOp.truth p != BinOp.truth q) = (p != q) := by decide
  cases cc <;> simp only [test?, Option.some.injEq, reduceCtorEq] at hcc <;> subst hcc <;>
    simp [toExpr, less, notLess, Expr.flag, Expr.eval, UnOp.apply, BinOp.value, BinOp.compute?,
      h.carry, h.zero, h.sign, h.overflow, hbeq, hbne]

/-- An effect that ends with the four status flags. -/
def Effect.withStatus (first : Effect) (z s c o : Expr) : Effect :=
  first ++ [(.flag .z, z), (.flag .s, s), (.flag .c, c), (.flag .o, o)]

/-- The flags at the end of an effect are bound, whatever stands before them. -/
theorem Effect.get?_withStatus (first : Effect) (z s c o : Expr) (f : Flag) :
    (first.withStatus z s c o).toBinding.get? (.flag f) =
      match f with
      | .z => some z
      | .s => some s
      | .c => some c
      | .o => some o
      | .p => first.toBinding.get? (.flag .p) := by
  have hsplit : first.withStatus z s c o =
      (((first ++ [(.flag .z, z)]) ++ [(.flag .s, s)]) ++ [(.flag .c, c)]) ++ [(.flag .o, o)] := by
    simp [withStatus]
  rw [hsplit]
  simp only [Effect.get?_toBinding_concat]
  cases f <;> simp [Location.flag]

/-- An effect leaves the given status flags. -/
def Effect.Leaves (effect : Effect) (v : Valuation) (flags : StatusFlags) : Prop :=
  ∃ first z s c o, effect = Effect.withStatus first z s c o ∧
    z.eval v = BinOp.truth flags.zero ∧ s.eval v = BinOp.truth flags.sign ∧
    c.eval v = BinOp.truth flags.carry ∧ o.eval v = BinOp.truth flags.overflow

theorem slt_zero_eq_msb (w : Word) : w.slt 0 = w.msb := by
  rw [BitVec.msb_eq_toInt, BitVec.slt_eq_decide]
  rfl

/-- The sign of a difference tells the order of the words unless it overflows. -/
theorem sign_bne_less (x y : Word) :
    (BinOp.truth ((x - y).slt 0) != BinOp.truth (x.slt y)) = x.ssubOverflow y := by
  rw [slt_zero_eq_msb, msb_sub]
  cases x.slt y <;> cases x.ssubOverflow y <;> rfl

theorem leaves_compareFlags (first : Effect) (a b : Expr) (v : Valuation) :
    Effect.Leaves (first ++ Lift.compareFlags a b) v (.ofSub (a.eval v) (b.eval v)) := by
  refine ⟨first, _, _, _, _, rfl, rfl, ?_, rfl, ?_⟩
  · exact congrArg BinOp.truth (slt_zero_eq_msb _)
  · exact congrArg BinOp.truth (sign_bne_less (a.eval v) (b.eval v))

theorem leaves_logicFlags (first : Effect) (result : Expr) (v : Valuation) :
    Effect.Leaves (first ++ Lift.logicFlags result) v (.ofResult (result.eval v)) :=
  ⟨first, _, _, _, _, rfl, rfl, congrArg BinOp.truth (slt_zero_eq_msb _), rfl, rfl⟩

/-- The lifted flags of an instruction are the ones it leaves. -/
theorem Opcode.leaves_effect? {opcode : Opcode} {target source : Operand} {v : Valuation}
    {flags : StatusFlags}
    (hflags : opcode.statusFlags? (target.value.eval v) (source.value.eval v) = some flags) :
    ∃ effect, opcode.effect? [target, source] = some effect ∧ effect.Leaves v flags := by
  cases opcode <;> simp only [statusFlags?, Option.some.injEq, reduceCtorEq] at hflags <;>
    subst hflags
  case cmp => exact ⟨_, rfl, leaves_compareFlags [] _ _ v⟩
  case sub => exact ⟨_, rfl, leaves_compareFlags (target.assign _) _ _ v⟩
  case test => exact ⟨_, rfl, leaves_logicFlags [] (.binary .and target.value source.value) v⟩
  case and => exact ⟨_, rfl, leaves_logicFlags _ (.binary .and target.value source.value) v⟩
  case or => exact ⟨_, rfl, leaves_logicFlags _ (.binary .or target.value source.value) v⟩
  case xor => exact ⟨_, rfl, leaves_logicFlags _ (.binary .xor target.value source.value) v⟩

namespace Effect.Leaves

variable {effect : Effect} {v : Valuation} {flags : StatusFlags}

theorem shows (h : effect.Leaves v flags) : (v.bind effect.toBinding).Shows flags := by
  obtain ⟨first, z, s, c, o, rfl, hz, hs, hc, ho⟩ := h
  have hget := Effect.get?_withStatus first z s c o
  exact {
    carry := (Valuation.bind_symbol_of_some (hget .c)).trans hc
    zero := (Valuation.bind_symbol_of_some (hget .z)).trans hz
    sign := (Valuation.bind_symbol_of_some (hget .s)).trans hs
    overflow := (Valuation.bind_symbol_of_some (hget .o)).trans ho }

theorem isSome_get? (h : effect.Leaves v flags) {f : Flag} (hf : f ≠ .p) :
    (effect.toBinding.get? (.flag f)).isSome := by
  obtain ⟨first, z, s, c, o, rfl, -⟩ := h
  rw [Effect.get?_withStatus]
  cases f with
  | p => exact absurd rfl hf
  | z | s | c | o => rfl

end Effect.Leaves

/-- Conditions on the status flags do not mention parity. -/
theorem Condition.references_parity {cc : Condition} {flags : StatusFlags} {holds : Bool}
    (hcc : cc.test? flags = some holds) : cc.toExpr.references (.flag .p) = false := by
  cases cc with
  | p | np => simp [test?] at hcc
  | _ => rfl

/-! ## Recovered conditions -/

theorem Instruction.Lifted.liveForm {insn : Instruction} (hlifted : insn.Lifted) :
    LiveForm insn.registerEffect where
  processor _ _ hvalue := (hlifted.registerEffect_form hvalue).1
  form _ _ hvalue := (hlifted.registerEffect_form hvalue).2.2

/-- A condition bound with lifted flags has the value of its test on the flags that
the instruction leaves. -/
theorem Condition.eval_bound {insn : Instruction} (hlifted : insn.Lifted) {v : Valuation}
    {flags : StatusFlags} (hleaves : insn.effect.Leaves v flags) {cc : Condition} {holds : Bool}
    (hcc : cc.test? flags = some holds) :
    (cc.toExpr.bind insn.registerEffect).reduce.eval v = BinOp.truth holds := by
  have hflags : ∀ f, (cc.toExpr.bind insn.registerEffect).references (.flag f) = false := by
    intro f
    rw [Bool.eq_false_iff]
    intro hread
    rcases Expr.references_bind hread with ⟨bound, value, hvalue, hread⟩ | ⟨hread, hnone⟩
    · -- lifted values are over operands
      have hoperands := (hlifted.registerEffect_form hvalue).2.1
      exact Bool.false_ne_true (Expr.symbol_of_within hoperands _ hread)
    · by_cases hf : f = .p
      · rw [hf, references_parity hcc] at hread
        exact Bool.false_ne_true hread
      · have hsome := hleaves.isSome_get? hf
        rw [show insn.effect.toBinding = insn.registerEffect from rfl, hnone] at hsome
        exact Bool.false_ne_true hsome
  rw [Expr.eval_reduce_of_no_flags v hflags (hlifted.liveForm.regular_condition cc),
    Expr.eval_bind]
  exact eval_toExpr hleaves.shows hcc

/-- Recovered branch conditions. After a comparing or bitwise instruction on words,
the formula of a condition, bound and reduced, evaluates before the instruction to
whether the condition holds after it: to the test of the status flags that the
instruction leaves, and to the relation between the words that they compare. -/
theorem Condition.eval_recovered (world : World) (machine : MachineState) (address : Address)
    {mnemonic : String}
    (hopcode : Opcode.ofMnemonic mnemonic ∈ [Opcode.cmp, .sub, .test, .and, .or, .xor])
    {target source : Operand} (htarget : target.isWord) (hsource : source.isWord)
    {cc : Condition} (hcc : cc ∉ [p, np, ecxz, cxz]) :
    ∃ flags x y holds,
      (Opcode.ofMnemonic mnemonic).statusFlags? (target.word machine) (source.word machine) =
        some flags ∧
      (Opcode.ofMnemonic mnemonic).compared? (target.word machine) (source.word machine) =
        some (x, y) ∧
      cc.test? flags = some holds ∧ cc.relation? x y = some holds ∧
      ((cc.toExpr.bind (Instruction.ofMnemonic address mnemonic
        [target, source]).registerEffect).reduce).eval (machine.valuation world) =
          BinOp.truth holds := by
  obtain ⟨⟨x, y⟩, hcompared⟩ := Opcode.exists_compared hopcode (target.word machine)
    (source.word machine)
  have hstatus : (Opcode.ofMnemonic mnemonic).statusFlags? (target.word machine)
      (source.word machine) = some (.ofSub x y) := by
    rw [Opcode.statusFlags?_eq, hcompared, Option.map_some]
  obtain ⟨holds, hholds⟩ := exists_test hcc (.ofSub x y)
  refine ⟨.ofSub x y, x, y, holds, hstatus, hcompared, hholds, ?_, ?_⟩
  · rw [← test?_ofSub, hholds]
  · rw [← Operand.eval_value world machine htarget, ← Operand.eval_value world machine hsource]
      at hstatus
    obtain ⟨effect, heffect, hleaves⟩ := Opcode.leaves_effect? hstatus
    have hinsn : (Instruction.ofMnemonic address mnemonic [target, source]).effect = effect := by
      simp only [Instruction.ofMnemonic, heffect, Option.getD_some]
    have hlifted : (Instruction.ofMnemonic address mnemonic [target, source]).Lifted := rfl
    exact eval_bound hlifted (hinsn ▸ hleaves) hholds

/-! ### A difference that overflows -/

namespace OverflowingComparison

def world : World := { port := fun _ _ => 0, byZero := fun _ w => w }

/-- Every byte of memory is `0xff`. -/
def machine : MachineState where
  symbol symbol := if symbol = .reg .eax then 0x7fffffff else 0x100
  memory _ := 0xff

def word : Operand := .mem { base := some .ebx, index := some .ecx, scale := 4, disp := -8 }

/-- The largest signed word is not less than or equal to `-1`, although their
difference is negative as a word. -/
theorem eval_recovered_le :
    Opcode.ofMnemonic "CMP" = .cmp ∧ word.isWord ∧
      ((Condition.le.toExpr.bind (Instruction.ofMnemonic 0 "CMP"
        [.ofReg .eax, word]).registerEffect).reduce).eval (machine.valuation world) = 0 := by
  have hopcode : Opcode.ofMnemonic "CMP" = .cmp := by decide +kernel
  have hlisted : Opcode.ofMnemonic "CMP" ∈ [Opcode.cmp, .sub, .test, .and, .or, .xor] := by
    rw [hopcode]
    decide
  have htarget : (Operand.ofReg .eax).isWord := rfl
  have hsource : word.isWord := rfl
  have hcc : Condition.le ∉ [Condition.p, .np, .ecxz, .cxz] := by decide
  obtain ⟨flags, x, y, holds, -, hcompared, -, hrelation, heval⟩ :=
    Condition.eval_recovered world machine 0 hlisted htarget hsource hcc
  refine ⟨hopcode, hsource, ?_⟩
  rw [hopcode] at hcompared
  cases hcompared
  rw [heval]
  cases hrelation
  decide

end OverflowingComparison

end Uncompile
