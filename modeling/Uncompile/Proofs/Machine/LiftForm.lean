import Uncompile.Machine.Instruction
import Uncompile.Proofs.C.Naming
import Uncompile.Proofs.Expr.Regular

/-!
# The form of lifted effects

Lifted values mention registers and the unknown value, never flags. Registers
and memory get arithmetic values; flags get comparisons of arithmetic values,
constants or the unknown value. Substituting values of these forms and reducing
gives values of the same forms, so whatever a block accumulates can be reduced
without loss.
-/

namespace Uncompile

/-- What the operands of instructions can be read as. -/
def Symbol.isOperand : Symbol → Bool
  | reg _ | special _ | unknown => true
  | _ => false

/-- The expressions over operands, without logical operators. -/
def Vocabulary.operands : Vocabulary where
  constant _ := True
  symbol s := s.isOperand
  memory := True
  operator op := op.isLogical = false
  constant_word _ := trivial
  constant_mask _ _ := trivial
  operator_add := rfl
  operator_sub := rfl
  operator_mul := rfl
  operator_negate {op inverse} hinverse _ := by
    cases op <;> simp only [BinOp.negate?, Option.some.injEq, reduceCtorEq] at hinverse <;>
      subst hinverse <;> rfl
  operator_swapped {op} hop := by cases op <;> simp_all [BinOp.swapped, BinOp.isLogical]
  operator_merged {op other merged} hmerged _ := by
    rcases Expr.mergedOperator?_eq_some hmerged with
      ⟨rfl, rfl, rfl⟩ | ⟨rfl, rfl, rfl⟩ | ⟨rfl, rfl, rfl⟩ | ⟨rfl, rfl, rfl⟩ <;> rfl

namespace Expr

/-- Operands have no names from outside. -/
theorem isNamed_of_operands {e : Expr} (he : e.Within .operands) :
    ∀ read, e.references read → read.isNamed = false := by
  intro read hread
  have hoperand : read.isOperand := symbol_of_within he read hread
  cases read <;> simp [Symbol.isOperand] at hoperand <;> rfl

/-- An expression over operands without equalities. -/
structure Arithmetic (e : Expr) : Prop where
  operands : e.Within .operands
  equalityFree : e.equalityFree

theorem regular_of_equalityFree {e : Expr} (hwithin : e.Within .operands)
    (hfree : e.equalityFree) : e.Regular := by
  induction e with
  | const value => trivial
  | sym symbol => trivial
  | mem ptr size ih => exact ih hwithin.2 hfree
  | port p size ih => exact ih hwithin.2 hfree
  | unary op arg ih => exact ih hwithin hfree
  | binary op lhs rhs ihl ihr =>
      obtain ⟨hop, hlhs, hrhs⟩ := hwithin
      simp only [Expr.equalityFree, Bool.and_eq_true, Bool.not_eq_true'] at hfree
      refine ⟨fun h => ?_, fun h => ?_, ihl hlhs hfree.1.2, ihr hrhs hfree.2⟩
      · rw [hfree.1.1] at h
        exact absurd h Bool.false_ne_true
      · rw [show op.isLogical = false from hop] at h
        exact absurd h Bool.false_ne_true

theorem Arithmetic.regular {e : Expr} (he : e.Arithmetic) : e.Regular :=
  regular_of_equalityFree he.operands he.equalityFree

theorem arithmetic_const (value : Int) : (const value).Arithmetic := ⟨trivial, rfl⟩

theorem arithmetic_sym {symbol : Symbol} (h : symbol.isOperand) : (sym symbol).Arithmetic :=
  ⟨h, rfl⟩

theorem arithmetic_reg (r : Reg) : (reg r).Arithmetic := arithmetic_sym rfl

theorem Arithmetic.mem {ptr : Expr} (hptr : ptr.Arithmetic) (size : Nat) :
    (mem ptr size).Arithmetic := ⟨⟨trivial, hptr.operands⟩, hptr.equalityFree⟩

theorem Arithmetic.port {p : Expr} (hp : p.Arithmetic) (size : Nat) :
    (port p size).Arithmetic := ⟨⟨trivial, hp.operands⟩, hp.equalityFree⟩

theorem Arithmetic.unary {arg : Expr} (harg : arg.Arithmetic) (op : UnOp) :
    (unary op arg).Arithmetic := ⟨harg.operands, harg.equalityFree⟩

theorem Arithmetic.binary {op : BinOp} {lhs rhs : Expr} (hlhs : lhs.Arithmetic)
    (hrhs : rhs.Arithmetic) (hop : (op.isLogical || op.isEquality) = false) :
    (binary op lhs rhs).Arithmetic := by
  rw [Bool.or_eq_false_iff] at hop
  refine ⟨⟨hop.1, hlhs.operands, hrhs.operands⟩, ?_⟩
  simp [Expr.equalityFree, hop.2, hlhs.equalityFree, hrhs.equalityFree]

theorem Arithmetic.reduce {e : Expr} (he : e.Arithmetic) : e.reduce.Arithmetic :=
  ⟨within_reduce he.operands, equalityFree_reduce he.equalityFree⟩

/-- An equality of arithmetic operands is regular. -/
theorem Arithmetic.regular_equality {op : BinOp} {lhs rhs : Expr} (hlhs : lhs.Arithmetic)
    (hrhs : rhs.Arithmetic) (hop : op.isLogical = false) : (Expr.binary op lhs rhs).Regular :=
  ⟨fun _ => comparable_of_equalityFree hlhs.equalityFree hrhs.equalityFree,
    fun h => absurd (hop ▸ h) Bool.false_ne_true, hlhs.regular, hrhs.regular⟩

end Expr

theorem arithmetic_offset {base : Expr} (hbase : base.Arithmetic) (delta : Int) :
    (Lift.offset base delta).Arithmetic :=
  (hbase.binary (Expr.arithmetic_const delta) rfl).reduce

theorem MemOperand.arithmetic_index (m : MemOperand) (index : Reg) :
    (Expr.add (.binary .mul (.reg index) (.const m.scale)) (.const m.disp)).Arithmetic :=
  ((Expr.arithmetic_reg index).binary (Expr.arithmetic_const _) rfl).binary
    (Expr.arithmetic_const _) rfl

theorem MemOperand.arithmetic_address (m : MemOperand) : m.address.Arithmetic := by
  unfold MemOperand.address
  apply Expr.Arithmetic.reduce
  cases m.base with
  | none =>
      cases m.index with
      | none => exact Expr.arithmetic_const _
      | some index => exact m.arithmetic_index index
  | some base =>
      cases m.index with
      | none => exact (Expr.arithmetic_reg base).binary (Expr.arithmetic_const _) rfl
      | some index => exact (Expr.arithmetic_reg base).binary (m.arithmetic_index index) rfl

theorem Operand.arithmetic_value (operand : Operand) : operand.value.Arithmetic := by
  cases operand with
  | reg r size =>
      simp only [Operand.value]
      split
      · exact Expr.arithmetic_reg r
      · exact (Expr.arithmetic_reg r).binary (Expr.arithmetic_const _) rfl
  | special r => exact Expr.arithmetic_sym rfl
  | imm value => exact Expr.arithmetic_const value
  | mem m => exact m.arithmetic_address.mem m.size

/-! ## Writes -/

/-- The values that a symbol can get. The sign flag is set apart: it is compared
with the overflow flag, which can be unknown. -/
structure ValueForm (symbol : Symbol) (value : Expr) : Prop where
  regular : value.Regular
  register : (∀ f, symbol ≠ .flag f) → value.equalityFree
  flag : ∀ f, symbol = .flag f → value.isBoolean ∨ value = .sym .unknown
  sign : symbol = .flag .s → value.equalityFree ∧ value.isBoolean

/-- The form of one write of a lifted effect. -/
inductive WriteForm : Location × Expr → Prop
  | symbol {symbol : Symbol} {value : Expr} (hsymbol : symbol.onProcessor)
      (hoperands : value.Within .operands) (hform : ValueForm symbol value) :
      WriteForm (.sym symbol, value)
  | memory {ptr value : Expr} (size : Nat) (hptr : ptr.Arithmetic) (hvalue : value.Arithmetic) :
      WriteForm (.mem ptr size, value)

namespace WriteForm

theorem register {symbol : Symbol} {value : Expr} (hsymbol : symbol.onProcessor)
    (hflag : ∀ f, symbol ≠ .flag f) (hvalue : value.Arithmetic) :
    WriteForm (.sym symbol, value) :=
  .symbol hsymbol hvalue.operands
    { regular := hvalue.regular
      register := fun _ => hvalue.equalityFree
      flag := fun f h => absurd h (hflag f)
      sign := fun h => absurd h (hflag .s) }

theorem reg (r : Reg) {value : Expr} (hvalue : value.Arithmetic) :
    WriteForm (.reg r, value) :=
  register rfl (by simp) hvalue

/-- A flag that is not the sign flag gets any regular Boolean form. -/
theorem flag {f : Flag} {value : Expr} (hf : f ≠ .s) (hoperands : value.Within .operands)
    (hregular : value.Regular) (hboolean : value.isBoolean) : WriteForm (.flag f, value) :=
  .symbol rfl hoperands
    { regular := hregular
      register := fun h => absurd rfl (h f)
      flag := fun _ _ => Or.inl hboolean
      sign := fun h => absurd (by simpa using h) hf }

theorem flag_unknown {f : Flag} (hf : f ≠ .s) : WriteForm (.flag f, .sym .unknown) :=
  .symbol rfl rfl
    { regular := trivial
      register := fun _ => rfl
      flag := fun _ _ => Or.inr rfl
      sign := fun h => absurd (by simpa using h) hf }

/-- Any flag can get an ordering of arithmetic values, or a bit. -/
theorem flag_arithmetic (f : Flag) {value : Expr} (hvalue : value.Arithmetic)
    (hboolean : value.isBoolean) : WriteForm (.flag f, value) :=
  .symbol rfl hvalue.operands
    { regular := hvalue.regular
      register := fun _ => hvalue.equalityFree
      flag := fun _ _ => Or.inl hboolean
      sign := fun _ => ⟨hvalue.equalityFree, hboolean⟩ }

theorem assign {target : Operand} {value : Expr} (hvalue : value.Arithmetic) :
    ∀ write ∈ target.assign value, WriteForm write := by
  cases target with
  | reg r size =>
      simp only [Operand.assign, Operand.assign?]
      split
      · simpa using reg r hvalue
      · have hkept : (Expr.binary .and (.reg r) (.const (mask32 - sizeMask size))).Arithmetic :=
          (Expr.arithmetic_reg r).binary (Expr.arithmetic_const _) rfl
        have hlow : (Expr.binary .and value (.const (sizeMask size))).Arithmetic :=
          hvalue.binary (Expr.arithmetic_const _) rfl
        simpa using reg r (hkept.binary hlow rfl)
  | special r => simpa [Operand.assign, Operand.assign?] using register rfl (by simp) hvalue
  | imm k => simp [Operand.assign, Operand.assign?]
  | mem m =>
      simpa [Operand.assign, Operand.assign?] using memory m.size m.arithmetic_address hvalue

/-- Setting a flag to whether an arithmetic result is zero. -/
theorem flag_zero {f : Flag} (hf : f ≠ .s) {op : BinOp} (hop : op.isEquality) {lhs rhs : Expr}
    (hlhs : lhs.Arithmetic) (hrhs : rhs.Arithmetic) :
    WriteForm (.flag f, .binary op lhs rhs) := by
  have hlogical : op.isLogical = false := by
    cases op <;> simp [BinOp.isEquality] at hop <;> rfl
  have hboolean : (Expr.binary op lhs rhs).isBoolean := by
    cases op <;> simp [BinOp.isEquality] at hop <;> rfl
  exact flag hf ⟨hlogical, hlhs.operands, hrhs.operands⟩
    (hlhs.regular_equality hrhs hlogical) hboolean

theorem resultFlags {result : Expr} (hresult : result.Arithmetic) :
    ∀ write ∈ Lift.resultFlags result, WriteForm write := by
  intro write hwrite
  simp only [Lift.resultFlags, List.mem_cons, List.not_mem_nil, or_false] at hwrite
  rcases hwrite with rfl | rfl
  · exact flag_zero (by decide) rfl hresult (Expr.arithmetic_const 0)
  · exact flag_arithmetic .s (hresult.binary (Expr.arithmetic_const 0) rfl) rfl

theorem compareFlags {a b : Expr} (ha : a.Arithmetic) (hb : b.Arithmetic) :
    ∀ write ∈ Lift.compareFlags a b, WriteForm write := by
  have hdifference : (Expr.binary .sub a b).Arithmetic := ha.binary hb rfl
  have hsign : (Expr.binary .lt (.binary .sub a b) (.const 0)).Arithmetic :=
    hdifference.binary (Expr.arithmetic_const 0) rfl
  have hless : (Expr.binary .lt a b).Arithmetic := ha.binary hb rfl
  intro write hwrite
  simp only [Lift.compareFlags, List.mem_cons, List.not_mem_nil, or_false] at hwrite
  rcases hwrite with rfl | rfl | rfl | rfl
  · exact flag_zero (by decide) rfl hdifference (Expr.arithmetic_const 0)
  · exact flag_arithmetic .s hsign rfl
  · exact flag_arithmetic .c (ha.binary hb rfl) rfl
  · exact flag_zero (by decide) rfl hsign hless

theorem logicFlags {result : Expr} (hresult : result.Arithmetic) :
    ∀ write ∈ Lift.logicFlags result, WriteForm write := by
  simp only [Lift.logicFlags, List.forall_mem_append]
  refine ⟨resultFlags hresult, ?_⟩
  intro write hwrite
  simp only [List.mem_cons, List.not_mem_nil, or_false] at hwrite
  rcases hwrite with rfl | rfl
  · exact flag_arithmetic .c (Expr.arithmetic_const 0) rfl
  · exact flag_arithmetic .o (Expr.arithmetic_const 0) rfl

/-! ## Instructions -/

theorem push (source : Operand) : ∀ write ∈ Lift.push source, WriteForm write := by
  have hstack := arithmetic_offset (Expr.arithmetic_reg .esp) (-4)
  intro write hwrite
  simp only [Lift.push, List.mem_cons, List.not_mem_nil, or_false] at hwrite
  rcases hwrite with rfl | rfl
  · exact reg .esp hstack
  · exact memory 4 hstack source.arithmetic_value

theorem pop (target : Operand) : ∀ write ∈ Lift.pop target, WriteForm write := by
  have htop : (Expr.mem (.reg .esp) 4).Arithmetic := (Expr.arithmetic_reg .esp).mem 4
  unfold Lift.pop
  split
  · simpa using reg .esp htop
  · rw [List.forall_mem_append]
    exact ⟨assign htop, by simpa using reg .esp (arithmetic_offset (Expr.arithmetic_reg .esp) 4)⟩

theorem add (target source : Operand) : ∀ write ∈ Lift.add target source, WriteForm write := by
  have hresult : (Expr.binary .add target.value source.value).Arithmetic :=
    target.arithmetic_value.binary source.arithmetic_value rfl
  simp only [Lift.add, List.forall_mem_append]
  refine ⟨⟨assign hresult, resultFlags hresult⟩, ?_⟩
  intro write hwrite
  simp only [List.mem_cons, List.not_mem_nil, or_false] at hwrite
  rcases hwrite with rfl | rfl
  · exact flag_arithmetic .c (hresult.binary target.arithmetic_value rfl) rfl
  · exact flag_unknown (by decide)

theorem sub (target source : Operand) : ∀ write ∈ Lift.sub target source, WriteForm write := by
  simp only [Lift.sub, List.forall_mem_append]
  exact ⟨assign (target.arithmetic_value.binary source.arithmetic_value rfl),
    compareFlags target.arithmetic_value source.arithmetic_value⟩

theorem bitwise {op : BinOp} (hop : (op.isLogical || op.isEquality) = false)
    (target source : Operand) : ∀ write ∈ Lift.bitwise op target source, WriteForm write := by
  have hresult := target.arithmetic_value.binary source.arithmetic_value hop
  simp only [Lift.bitwise, List.forall_mem_append]
  exact ⟨assign hresult, logicFlags hresult⟩

theorem step (delta : Int) (target : Operand) :
    ∀ write ∈ Lift.step delta target, WriteForm write := by
  have hresult : (Expr.add target.value (.const delta)).Arithmetic :=
    target.arithmetic_value.binary (Expr.arithmetic_const delta) rfl
  simp only [Lift.step, List.forall_mem_append]
  exact ⟨⟨assign hresult, resultFlags hresult⟩, by simpa using flag_unknown (by decide)⟩

theorem neg (target : Operand) : ∀ write ∈ Lift.neg target, WriteForm write := by
  have hresult := target.arithmetic_value.unary .neg
  simp only [Lift.neg, List.forall_mem_append]
  refine ⟨⟨assign hresult, resultFlags hresult⟩, ?_⟩
  simpa using flag_zero (by decide) rfl target.arithmetic_value (Expr.arithmetic_const 0)

theorem shift {op : BinOp} (hop : (op.isLogical || op.isEquality) = false)
    (target count : Operand) : ∀ write ∈ Lift.shift op target count, WriteForm write := by
  have hresult := target.arithmetic_value.binary count.arithmetic_value hop
  simp only [Lift.shift, List.forall_mem_append]
  exact ⟨assign hresult, resultFlags hresult⟩

theorem arithmetic_extend (source : Operand) (signed : Bool) :
    (Lift.extend source signed).Arithmetic := by
  have hlow : (Expr.binary .and source.value (.const (sizeMask source.size))).Arithmetic :=
    source.arithmetic_value.binary (Expr.arithmetic_const _) rfl
  unfold Lift.extend
  split
  · exact source.arithmetic_value
  · dsimp only
    split
    · exact (hlow.binary (Expr.arithmetic_const _) rfl).binary (Expr.arithmetic_const _) rfl
    · exact hlow

theorem registers {first second : Reg} {a b : Expr} (ha : a.Arithmetic) (hb : b.Arithmetic) :
    ∀ write ∈ [((.reg first, a) : Location × Expr), (.reg second, b)], WriteForm write := by
  intro write hwrite
  simp only [List.mem_cons, List.not_mem_nil, or_false] at hwrite
  rcases hwrite with rfl | rfl
  · exact reg first ha
  · exact reg second hb

end WriteForm

/-- Every write of a lifted effect has the form of a write; only output to a port
is no write of the machine. -/
theorem Opcode.effect?_form {opcode : Opcode} {operands : List Operand} {effect : Effect}
    (hopcode : opcode ≠ .portOut) (heffect : opcode.effect? operands = some effect) :
    ∀ write ∈ effect, WriteForm write := by
  unfold Opcode.effect? at heffect
  split at heffect <;> simp only [Option.some.injEq, reduceCtorEq] at heffect <;>
    subst heffect
  case h_1 | h_2 | h_3 | h_4 | h_5 | h_6 => simp
  · exact WriteForm.push _
  · exact WriteForm.pop _
  · exact WriteForm.assign (Operand.arithmetic_value _)
  · exact WriteForm.assign (WriteForm.arithmetic_extend _ false)
  · exact WriteForm.assign (WriteForm.arithmetic_extend _ true)
  · exact WriteForm.assign (MemOperand.arithmetic_address _)
  · exact WriteForm.add _ _
  · exact WriteForm.sub _ _
  · exact WriteForm.bitwise rfl _ _
  · exact WriteForm.bitwise rfl _ _
  · exact WriteForm.bitwise rfl _ _
  · exact WriteForm.compareFlags (Operand.arithmetic_value _) (Operand.arithmetic_value _)
  · exact WriteForm.logicFlags
      ((Operand.arithmetic_value _).binary (Operand.arithmetic_value _) rfl)
  · exact WriteForm.step 1 _
  · exact WriteForm.step (-1) _
  · exact WriteForm.neg _
  · exact WriteForm.assign ((Operand.arithmetic_value _).unary .not)
  · exact WriteForm.shift rfl _ _
  · exact WriteForm.shift rfl _ _
  · exact WriteForm.shift rfl _ _
  · exact WriteForm.registers ((Expr.arithmetic_reg .eax).binary (Operand.arithmetic_value _) rfl)
      (Expr.arithmetic_sym rfl)
  · exact WriteForm.registers ((Expr.arithmetic_reg .eax).binary (Operand.arithmetic_value _) rfl)
      (Expr.arithmetic_sym rfl)
  · exact WriteForm.assign ((Operand.arithmetic_value _).binary (Operand.arithmetic_value _) rfl)
  · exact WriteForm.assign ((Operand.arithmetic_value _).binary (Operand.arithmetic_value _) rfl)
  · exact WriteForm.registers ((Expr.arithmetic_reg .eax).binary (Operand.arithmetic_value _) rfl)
      ((Expr.arithmetic_reg .eax).binary (Operand.arithmetic_value _) rfl)
  · exact WriteForm.registers ((Expr.arithmetic_reg .eax).binary (Operand.arithmetic_value _) rfl)
      ((Expr.arithmetic_reg .eax).binary (Operand.arithmetic_value _) rfl)
  · simpa using WriteForm.reg .edx
      ((Expr.arithmetic_reg .eax).binary (Expr.arithmetic_const 31) rfl)
  · exact WriteForm.registers (arithmetic_offset (Expr.arithmetic_reg .ebp) 4)
      ((Expr.arithmetic_reg .ebp).mem 4)
  · simpa [Lift.ret] using WriteForm.reg .esp (arithmetic_offset (Expr.arithmetic_reg .esp) _)
  · simpa using WriteForm.reg .ecx (arithmetic_offset (Expr.arithmetic_reg .ecx) (-1))
  · exact WriteForm.assign ((Operand.arithmetic_value _).port _)
  · exact absurd rfl hopcode
  · simpa using WriteForm.register rfl (by simp) ((MemOperand.arithmetic_address _).mem 6)
  · simpa using WriteForm.register rfl (by simp) ((MemOperand.arithmetic_address _).mem 6)
  · simpa using WriteForm.register rfl (by simp) (Operand.arithmetic_value _)
  · simpa using WriteForm.register rfl (by simp) (Operand.arithmetic_value _)

/-! ## Stores -/

theorem Operand.length_stores_assign (target : Operand) (value : Expr) :
    (target.assign value).stores.length ≤ 1 := by
  have hassign : (target.assign value).length ≤ 1 := by
    rw [Operand.assign]
    cases target.assign? value <;> simp
  exact (List.length_filter_le _ _).trans hassign

/-- Nothing else of an effect that assigns to an operand is a store. -/
theorem Operand.length_stores_assign_append (target : Operand) (value : Expr) {rest : Effect}
    (hrest : rest.stores = []) : (target.assign value ++ rest).stores.length ≤ 1 := by
  have hsplit : (target.assign value ++ rest).stores = (target.assign value).stores := by
    rw [Effect.stores, List.filter_append]
    exact (congrArg _ hrest).trans (List.append_nil _)
  rw [hsplit]
  exact target.length_stores_assign value

/-- A lifted effect stores at most once. -/
theorem Opcode.length_stores_effect? {opcode : Opcode} {operands : List Operand} {effect : Effect}
    (heffect : opcode.effect? operands = some effect) : effect.stores.length ≤ 1 := by
  unfold Opcode.effect? at heffect
  split at heffect <;> simp only [Option.some.injEq, reduceCtorEq] at heffect <;>
    subst heffect
  -- an assignment alone
  case h_9 | h_10 | h_11 | h_12 | h_23 | h_29 | h_30 | h_37 =>
    exact Operand.length_stores_assign _ _
  -- an assignment with flags after it
  case h_13 | h_14 | h_15 | h_16 | h_17 | h_20 | h_21 | h_22 | h_24 | h_25 | h_26 =>
    simp only [Lift.add, Lift.sub, Lift.bitwise, Lift.step, Lift.neg, Lift.shift,
      List.append_assoc]
    exact Operand.length_stores_assign_append _ _ rfl
  case h_8 =>
    unfold Lift.pop
    split
    · exact Nat.zero_le 1
    · exact Operand.length_stores_assign_append _ _ rfl
  -- a push and an output store once, and all others only write to the processor
  case h_7 | h_38 => exact Nat.le_refl 1
  all_goals exact Nat.zero_le 1

/-- No mnemonic of a loop asks for anything but the zero flag. -/
theorem Opcode.condition_of_loop {mnemonic : String} {code : Condition}
    (hopcode : ofMnemonic mnemonic = .loop (some code)) : code = .z ∨ code = .nz := by
  rw [ofMnemonic] at hopcode
  generalize mnemonic.toLower = name at hopcode
  split at hopcode
  · rename_i opcode hname
    subst hopcode
    unfold ofName? at hname
    split at hname
    all_goals cases hname
    · exact Or.inl rfl
    · exact Or.inl rfl
    · exact Or.inr rfl
    · exact Or.inr rfl
  · split at hopcode <;> cases hopcode

namespace Instruction

/-- The instruction has the effect and the attributes that its mnemonic implies. -/
def Lifted (insn : Instruction) : Prop :=
  insn = .ofMnemonic insn.address insn.mnemonic insn.operands

theorem Lifted.effect_eq {insn : Instruction} (hlifted : insn.Lifted) :
    insn.effect = (insn.opcode.effect? insn.operands).getD [] := by
  have h := congrArg Instruction.effect hlifted
  exact h

theorem Lifted.writeForm {insn : Instruction} (hlifted : insn.Lifted)
    (hopcode : insn.opcode ≠ .portOut) : ∀ write ∈ insn.effect, WriteForm write := by
  rw [hlifted.effect_eq]
  cases heffect : insn.opcode.effect? insn.operands with
  | none => simp
  | some effect => exact Opcode.effect?_form hopcode heffect

theorem Lifted.length_stores {insn : Instruction} (hlifted : insn.Lifted) :
    insn.effect.stores.length ≤ 1 := by
  rw [hlifted.effect_eq]
  cases heffect : insn.opcode.effect? insn.operands with
  | none => exact Nat.zero_le 1
  | some effect => exact Opcode.length_stores_effect? heffect

/-- The opcode of a loop. -/
theorem opcode_of_loop {insn : Instruction} {cc : Option Condition}
    (hkind : insn.kind = .loop cc) : insn.opcode = .loop cc := by
  unfold kind Opcode.kind at hkind
  split at hkind
  case h_4 hopcode =>
    rw [hopcode]
    exact congrArg Opcode.loop (Kind.loop.inj hkind)
  case h_5 => split at hkind <;> cases hkind
  case h_14 => split at hkind <;> cases hkind
  all_goals cases hkind

/-- A loop asks for nothing but the zero flag. -/
theorem condition_of_loop {insn : Instruction} {code : Condition}
    (hkind : insn.kind = .loop (some code)) : code = .z ∨ code = .nz :=
  Opcode.condition_of_loop (opcode_of_loop hkind)

/-- An instruction whose effect is taken over as it is writes to no port. -/
theorem opcode_ne_portOut_of_plain {insn : Instruction} (hkind : insn.kind = .plain) :
    insn.opcode ≠ .portOut := by
  intro hopcode
  rw [kind, hopcode] at hkind
  exact Kind.noConfusion hkind

end Instruction

/-! ## Flags -/

namespace MachineState

variable (world : World) {before machine : MachineState}

end MachineState

end Uncompile
