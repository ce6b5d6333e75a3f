import Uncompile.Proofs.Machine.Views

/-!
# Lifted effects and the processor

The effect of an arithmetic instruction is the write of its result followed by flags.
The result and every flag with a formula are those of the processor for the words
that the operands are read as, whatever their width. For instructions on words this
gives the registers, the memory and the flags that the processor leaves.
-/

namespace Uncompile

/-! ## Flags of an effect -/

/-- A lifted value follows what the processor does to a flag: nothing is said about it,
or it is the bit that the processor sets. -/
def Expr.Follows (value : Expr) (v : Valuation) (action : FlagAction) : Prop :=
  value = .sym .unknown ∨ ∃ bit, action = .sets bit ∧ value.eval v = BinOp.truth bit

namespace Effect

/-- Every flag that an effect writes follows the processor. -/
def Reports (effect : Effect) (v : Valuation) (action : StatusFlag → FlagAction) : Prop :=
  ∀ f value, (Location.flag f.flag, value) ∈ effect → value.Follows v (action f)

/-- Every status flag other than the overflow flag has a formula, or it is left alone as
the processor leaves it. -/
def Complete (effect : Effect) (action : StatusFlag → FlagAction) : Prop :=
  ∀ f, f ≠ .overflow → (action f = .keeps ∧ effect.toBinding.get? (.flag f.flag) = none) ∨
    ∃ value, effect.toBinding.get? (.flag f.flag) = some value ∧ value ≠ .sym .unknown

def FlagsOnly (effect : Effect) : Prop := ∀ write ∈ effect, ∃ f, write.1 = .flag f

variable {v : Valuation} {action : StatusFlag → FlagAction}

theorem reports_nil : Reports [] v action := by
  intro f value hwrite
  exact absurd hwrite List.not_mem_nil

theorem flagsOnly_nil : FlagsOnly [] := by
  intro write hwrite
  exact absurd hwrite List.not_mem_nil

theorem Reports.cons {f : StatusFlag} {value : Expr} {rest : Effect}
    (hvalue : value.Follows v (action f)) (hrest : rest.Reports v action) :
    Reports ((.flag f.flag, value) :: rest) v action := by
  intro other written hwrite
  rcases List.mem_cons.mp hwrite with hhead | htail
  · have hsame : other = f ∧ written = value := by
      cases other <;> cases f <;> simp_all [StatusFlag.flag, Location.flag]
    rw [hsame.1, hsame.2]
    exact hvalue
  · exact hrest other written htail

theorem Reports.append {first rest : Effect} (hfirst : first.Reports v action)
    (hrest : rest.Reports v action) : Reports (first ++ rest) v action := by
  intro f value hwrite
  rcases List.mem_append.mp hwrite with h | h
  · exact hfirst f value h
  · exact hrest f value h

/-- Writing to an operand sets no flag. -/
theorem notMem_assign (target : Operand) (value : Expr) (f : Flag) (written : Expr) :
    (Location.flag f, written) ∉ target.assign value := by
  cases target with
  | reg r size =>
      simp only [Operand.assign, Operand.assign?]
      split <;> simp [Location.flag, Location.reg]
  | special r => simp [Operand.assign, Operand.assign?, Location.flag]
  | imm k => simp [Operand.assign, Operand.assign?]
  | mem m => simp [Operand.assign, Operand.assign?, Location.flag]

theorem reports_assign (target : Operand) (value : Expr) :
    Reports (target.assign value) v action := by
  intro f written hwrite
  exact absurd hwrite (notMem_assign target value f.flag written)

/-- Later writes hide earlier ones. -/
theorem get?_toBinding_append (first rest : Effect) (symbol : Symbol) :
    (first ++ rest).toBinding.get? symbol =
      (rest.toBinding.get? symbol).or (first.toBinding.get? symbol) := by
  induction rest using List.reverseRecOn with
  | nil => simp [toBinding, SortedMap.ofList]
  | append_singleton rest write ih =>
      rw [← List.append_assoc, get?_toBinding_concat, get?_toBinding_concat, ih]
      split <;> rfl

theorem get?_flag_assign (target : Operand) (value : Expr) (f : Flag) :
    (target.assign value).toBinding.get? (.flag f) = none := by
  cases hwritten : (target.assign value).toBinding.get? (.flag f) with
  | none => rfl
  | some written =>
      exact absurd (mem_of_get?_toBinding hwritten) (notMem_assign target value f written)

/-- The flags of an effect that writes to an operand are those written after it. -/
theorem get?_flag_assign_append (target : Operand) (value : Expr) (rest : Effect) (f : Flag) :
    (target.assign value ++ rest).toBinding.get? (.flag f) = rest.toBinding.get? (.flag f) := by
  rw [get?_toBinding_append, get?_flag_assign, Option.or_none]

theorem Complete.assign {flags : Effect} (hflags : flags.Complete action) (target : Operand)
    (value : Expr) : (target.assign value ++ flags).Complete action := by
  intro f hf
  rw [get?_flag_assign_append]
  exact hflags f hf

/-- A complete effect that reports what the processor does leaves every flag but the
overflow flag as the processor leaves it. -/
theorem Reports.allows {world : World} {machine : MachineState} {effect : Effect}
    (hreports : effect.Reports (machine.valuation world) action)
    (hcomplete : effect.Complete action)
    {f : StatusFlag} (hf : f ≠ .overflow) :
    (action f).Allows (machine.symbol (.flag f.flag))
      ((machine.exec world effect).symbol (.flag f.flag)) := by
  rw [MachineState.symbol_exec]
  rcases hcomplete f hf with ⟨hkeeps, hnone⟩ | ⟨value, hvalue, hknown⟩
  · rw [hkeeps, hnone]
    rfl
  · rcases hreports f value (mem_of_get?_toBinding hvalue) with hunknown | ⟨bit, hsets, heval⟩
    · exact absurd hunknown hknown
    · rw [hsets, hvalue]
      exact heval

end Effect

/-! ## Bits of words -/

theorem truth_slt_zero (x : Word) : BinOp.truth (x.slt 0) = BinOp.truth x.msb :=
  congrArg BinOp.truth (slt_zero_eq_msb x)

/-- A sum carries exactly if it is less than its first operand. -/
theorem add_ult_left (a b : Word) : (a + b).ult a = a.uaddOverflow b := by
  have ha := a.isLt
  have hb := b.isLt
  rw [BitVec.ult_eq_decide, BitVec.uaddOverflow, decide_eq_decide, BitVec.toNat_add]
  omega

/-- Negation borrows unless the operand is zero. -/
theorem bne_zero_eq_usubOverflow (a : Word) : (a != 0) = BitVec.usubOverflow 0 a := by
  rw [BitVec.usubOverflow, Bool.eq_iff_iff, bne_iff_ne, decide_eq_true_eq, ne_eq,
    ← BitVec.toNat_inj]
  exact Nat.pos_iff_ne_zero.symm

theorem add_toWord_neg_one (a : Word) : a + toWord (-1) = a - 1 := by
  rw [toWord_neg, toWord_one, ← sub_eq_add_neg]

/-- The low word of a signed product is the product of the words. -/
theorem signedProduct_eq (a b : Word) : Opcode.signedProduct a b = a * b := by
  rw [Opcode.signedProduct, BitVec.ofInt_mul, BitVec.ofInt_toInt, BitVec.ofInt_toInt]

/-- The high half of a word taken for 64 bits repeats its sign. -/
theorem extractLsb_signExtend (a : Word) :
    (a.signExtend 64).extractLsb' 32 32 = a.sshiftRight 31 := by
  apply BitVec.eq_of_getLsbD_eq
  intro i hi
  rw [BitVec.getLsbD_extractLsb', BitVec.getLsbD_signExtend, BitVec.getLsbD_sshiftRight,
    decide_eq_true hi, decide_eq_true (by omega : 32 + i < 64), if_neg (by omega),
    decide_eq_false (by omega : ¬32 ≤ i)]
  by_cases hlow : 31 + i < 32
  · obtain rfl : i = 0 := by omega
    simp [BitVec.msb_eq_getLsbD_last]
  · simp [hlow]

/-! ## Arithmetic instructions -/

namespace Lift

/-- The parts of a lifted arithmetic instruction: an expression for the result, and
flags of which the zero and the sign flag are read off that expression. -/
structure Shape (v : Valuation) (result : Expr) (flags : Effect) (value : Word) : Prop where
  flagsOnly : flags.FlagsOnly
  value_eq : result.eval v = value
  zero : flags.toBinding.get? (.flag .z) = some (.binary .eq result (.const 0))
  sign : flags.toBinding.get? (.flag .s) = some (.binary .lt result (.const 0))

variable {v : Valuation} {action : StatusFlag → FlagAction}

theorem flagsOnly_resultFlags (result : Expr) {rest : Effect} (hrest : rest.FlagsOnly) :
    Effect.FlagsOnly (resultFlags result ++ rest) := by
  intro write hwrite
  simp only [resultFlags, List.cons_append, List.nil_append, List.mem_cons] at hwrite
  rcases hwrite with rfl | rfl | h
  · exact ⟨.z, rfl⟩
  · exact ⟨.s, rfl⟩
  · exact hrest write h

theorem follows_zero {result : Expr} {act : FlagAction}
    (haction : act = .sets (result.eval v == 0)) :
    (Expr.binary .eq result (.const 0)).Follows v act :=
  Or.inr ⟨_, haction, rfl⟩

theorem follows_sign {result : Expr} {act : FlagAction}
    (haction : act = .sets (result.eval v).msb) :
    (Expr.binary .lt result (.const 0)).Follows v act :=
  Or.inr ⟨_, haction, truth_slt_zero _⟩

theorem reports_resultFlags (result : Expr)
    (hzero : action .zero = .sets (result.eval v == 0))
    (hsign : action .sign = .sets (result.eval v).msb) {rest : Effect}
    (hrest : rest.Reports v action) : Effect.Reports (resultFlags result ++ rest) v action :=
  (Effect.reports_nil.cons (follows_sign hsign)).cons (follows_zero hzero) |>.append hrest

theorem get?_zero_resultFlags (result : Expr) {rest : Effect}
    (hzero : rest.toBinding.get? (.flag .z) = none) :
    (resultFlags result ++ rest).toBinding.get? (.flag .z) =
      some (.binary .eq result (.const 0)) := by
  rw [Effect.get?_toBinding_append, hzero, Option.none_or]
  rfl

theorem get?_sign_resultFlags (result : Expr) {rest : Effect}
    (hsign : rest.toBinding.get? (.flag .s) = none) :
    (resultFlags result ++ rest).toBinding.get? (.flag .s) =
      some (.binary .lt result (.const 0)) := by
  rw [Effect.get?_toBinding_append, hsign, Option.none_or]
  rfl

/-- The flags of a result, with further flags after them. -/
theorem shape_resultFlags (v : Valuation) (result : Expr) {rest : Effect}
    (hrest : rest.FlagsOnly) (hzero : rest.toBinding.get? (.flag .z) = none)
    (hsign : rest.toBinding.get? (.flag .s) = none) :
    Shape v result (resultFlags result ++ rest) (result.eval v) where
  flagsOnly := flagsOnly_resultFlags result hrest
  value_eq := rfl
  zero := get?_zero_resultFlags result hzero
  sign := get?_sign_resultFlags result hsign

theorem complete_resultFlags (result : Expr) {rest : Effect}
    (hzero : rest.toBinding.get? (.flag .z) = none) (hsign : rest.toBinding.get? (.flag .s) = none)
    (hcarry : (action .carry = .keeps ∧ rest.toBinding.get? (.flag .c) = none) ∨
      ∃ value, rest.toBinding.get? (.flag .c) = some value ∧ value ≠ .sym .unknown) :
    Effect.Complete (resultFlags result ++ rest) action := by
  intro f hf
  cases f with
  | zero => exact Or.inr ⟨_, get?_zero_resultFlags result hzero, by simp⟩
  | sign => exact Or.inr ⟨_, get?_sign_resultFlags result hsign, by simp⟩
  | carry =>
      have hresult : (resultFlags result).toBinding.get? (.flag .c) = none := rfl
      simp only [StatusFlag.flag, Effect.get?_toBinding_append, hresult, Option.or_none]
      exact hcarry
  | overflow => exact absurd rfl hf

theorem flagsOnly_singleton (f : Flag) (value : Expr) :
    Effect.FlagsOnly [(.flag f, value)] := by
  intro write hwrite
  exact ⟨f, by rw [List.mem_singleton.mp hwrite]⟩

theorem flagsOnly_pair (f g : Flag) (value other : Expr) :
    Effect.FlagsOnly [(.flag f, value), (.flag g, other)] := by
  intro write hwrite
  rcases List.mem_pair.mp hwrite with rfl | rfl
  · exact ⟨f, rfl⟩
  · exact ⟨g, rfl⟩

theorem reports_pair {f g : StatusFlag} {value other : Expr} (hvalue : value.Follows v (action f))
    (hother : other.Follows v (action g)) :
    Effect.Reports [(.flag f.flag, value), (.flag g.flag, other)] v action :=
  (Effect.reports_nil.cons hother).cons hvalue

theorem shape_compareFlags (v : Valuation) (a b : Expr) :
    Shape v (.binary .sub a b) (compareFlags a b) (a.eval v - b.eval v) :=
  shape_resultFlags v (.binary .sub a b) (flagsOnly_pair .c .o _ _) rfl rfl

theorem reports_compareFlags (v : Valuation) (a b : Expr) :
    (compareFlags a b).Reports v (StatusFlags.ofSub (a.eval v) (b.eval v)).setAll := by
  have hoverflow := congrArg BinOp.truth (sign_bne_less (a.eval v) (b.eval v))
  exact reports_resultFlags (.binary .sub a b) rfl rfl
    (reports_pair (f := .carry) (g := .overflow) (Or.inr ⟨_, rfl, rfl⟩)
      (Or.inr ⟨_, rfl, hoverflow⟩))

theorem complete_compareFlags (a b : Expr) : (compareFlags a b).Complete action :=
  complete_resultFlags _ rfl rfl (Or.inr ⟨_, rfl, by simp⟩)

theorem shape_logicFlags (v : Valuation) (result : Expr) :
    Shape v result (logicFlags result) (result.eval v) :=
  shape_resultFlags v result (flagsOnly_pair .c .o _ _) rfl rfl

theorem reports_logicFlags (v : Valuation) (result : Expr) :
    (logicFlags result).Reports v (StatusFlags.ofResult (result.eval v)).setAll :=
  reports_resultFlags result rfl rfl
    (reports_pair (f := .carry) (g := .overflow) (Or.inr ⟨_, rfl, rfl⟩) (Or.inr ⟨_, rfl, rfl⟩))

theorem complete_logicFlags (result : Expr) : (logicFlags result).Complete action :=
  complete_resultFlags result rfl rfl (Or.inr ⟨_, rfl, by simp⟩)

end Lift

/-- The effect of an arithmetic instruction on one or two operands is the write of its
result, except for comparisons, and its flags, which are those of the processor. -/
theorem Opcode.exists_shape_binary {opcode : Opcode}
    (hopcode : opcode ∈ [add, sub, and, or, xor]) (target source : Operand) (v : Valuation) :
    ∃ result flags outcome, opcode.effect? [target, source] = some (target.assign result ++ flags) ∧
      opcode.outcome? (target.value.eval v) (source.value.eval v) = some outcome ∧
      Lift.Shape v result flags outcome.result ∧ flags.Reports v outcome.action ∧
      flags.Complete outcome.action := by
  simp only [List.mem_cons, List.not_mem_nil, or_false] at hopcode
  rcases hopcode with rfl | rfl | rfl | rfl | rfl
  · have hcarry := congrArg BinOp.truth (add_ult_left (target.value.eval v) (source.value.eval v))
    exact ⟨_, _, _, congrArg some (List.append_assoc ..), rfl,
      Lift.shape_resultFlags v _ (Lift.flagsOnly_pair .c .o _ _) rfl rfl,
      Lift.reports_resultFlags _ rfl rfl (Lift.reports_pair (f := .carry) (g := .overflow)
        (Or.inr ⟨_, rfl, hcarry⟩) (Or.inl rfl)),
      Lift.complete_resultFlags _ rfl rfl (Or.inr ⟨_, rfl, by simp⟩)⟩
  · exact ⟨_, _, _, rfl, rfl, Lift.shape_compareFlags v _ _, Lift.reports_compareFlags v _ _,
      Lift.complete_compareFlags _ _⟩
  all_goals
    exact ⟨_, _, _, rfl, rfl, Lift.shape_logicFlags v _, Lift.reports_logicFlags v _,
      Lift.complete_logicFlags _⟩

theorem Opcode.exists_shape_compare {opcode : Opcode} (hopcode : opcode ∈ [cmp, test])
    (target source : Operand) (v : Valuation) :
    ∃ result flags outcome, opcode.effect? [target, source] = some flags ∧
      opcode.outcome? (target.value.eval v) (source.value.eval v) = some outcome ∧
      Lift.Shape v result flags outcome.result ∧ flags.Reports v outcome.action ∧
      flags.Complete outcome.action := by
  rcases List.mem_pair.mp hopcode with rfl | rfl
  · exact ⟨_, _, _, rfl, rfl, Lift.shape_compareFlags v _ _, Lift.reports_compareFlags v _ _,
      Lift.complete_compareFlags _ _⟩
  · exact ⟨_, _, _, rfl, rfl, Lift.shape_logicFlags v (.binary .and target.value source.value),
      Lift.reports_logicFlags v _, Lift.complete_logicFlags _⟩

theorem Opcode.exists_shape_unary {opcode : Opcode} (hopcode : opcode ∈ [inc, dec, neg])
    (target : Operand) (v : Valuation) (other : Word) :
    ∃ result flags outcome, opcode.effect? [target] = some (target.assign result ++ flags) ∧
      opcode.outcome? (target.value.eval v) other = some outcome ∧
      Lift.Shape v result flags outcome.result ∧ flags.Reports v outcome.action ∧
      flags.Complete outcome.action := by
  simp only [List.mem_cons, List.not_mem_nil, or_false] at hopcode
  rcases hopcode with rfl | rfl | rfl
  · refine ⟨_, _, _, congrArg some (List.append_assoc ..), rfl,
      Lift.shape_resultFlags v _ (Lift.flagsOnly_singleton .o _) rfl rfl,
      Lift.reports_resultFlags _ rfl rfl ?_,
      Lift.complete_resultFlags _ rfl rfl (Or.inl ⟨rfl, rfl⟩)⟩
    exact Effect.reports_nil.cons (f := .overflow) (Or.inl rfl)
  · have hvalue := add_toWord_neg_one (target.value.eval v)
    refine ⟨_, _, _, congrArg some (List.append_assoc ..), rfl, ?_, ?_,
      Lift.complete_resultFlags _ rfl rfl (Or.inl ⟨rfl, rfl⟩)⟩
    · have hshape := Lift.shape_resultFlags v (.add target.value (.const (-1)))
        (Lift.flagsOnly_singleton .o (.sym .unknown)) rfl rfl
      exact ⟨hshape.flagsOnly, hvalue, hshape.zero, hshape.sign⟩
    · refine Lift.reports_resultFlags _ ?_ ?_
        (Effect.reports_nil.cons (f := .overflow) (Or.inl rfl))
      · change FlagAction.sets _ = .sets (target.value.eval v + toWord (-1) == 0)
        rw [hvalue]
        rfl
      · change FlagAction.sets _ = .sets (target.value.eval v + toWord (-1)).msb
        rw [hvalue]
        rfl
  · have hcarry := congrArg BinOp.truth (bne_zero_eq_usubOverflow (target.value.eval v))
    have hvalue : 0 - target.value.eval v = -target.value.eval v := BitVec.zero_sub _
    refine ⟨_, _, _, congrArg some (List.append_assoc ..), rfl,
      Lift.shape_resultFlags v _ (Lift.flagsOnly_singleton .c _) rfl rfl, ?_,
      Lift.complete_resultFlags _ rfl rfl (Or.inr ⟨_, rfl, by simp⟩)⟩
    refine Lift.reports_resultFlags _ ?_ ?_
      (Effect.reports_nil.cons (f := .carry) (Or.inr ⟨_, rfl, hcarry⟩))
    · exact congrArg (fun word => FlagAction.sets (word == 0)) hvalue
    · exact congrArg (fun word => FlagAction.sets word.msb) hvalue

/-- The flags of a shift are those of the processor unless it shifts by zero. -/
theorem Opcode.exists_shape_shift {opcode : Opcode} (hopcode : opcode ∈ [shl, shr, sar])
    (target count : Operand) (v : Valuation) :
    ∃ result flags outcome, opcode.effect? [target, count] = some (target.assign result ++ flags) ∧
      opcode.shifted? (target.value.eval v) ((count.value.eval v).toNat % 32) = some outcome ∧
      Lift.Shape v result flags outcome.result ∧
      ((count.value.eval v).toNat % 32 ≠ 0 → flags.Reports v outcome.action) := by
  have hshape : ∀ result : Expr, Lift.Shape v result (Lift.resultFlags result) (result.eval v) :=
    fun result => Lift.shape_resultFlags v result Effect.flagsOnly_nil rfl rfl
  have haction : ∀ (result : Expr) {lastOut : Option Bool} {overflow : Bool} {n : Nat}, n ≠ 0 →
      (Lift.resultFlags result).Reports v
        (shiftAction n (result.eval v) lastOut overflow) := by
    intro result lastOut overflow n hn
    refine Lift.reports_resultFlags result ?_ ?_ Effect.reports_nil
    · simp [shiftAction, hn]
    · simp [shiftAction, hn]
  simp only [List.mem_cons, List.not_mem_nil, or_false] at hopcode
  rcases hopcode with rfl | rfl | rfl
  · exact ⟨_, _, _, rfl, rfl, hshape _, haction (.binary .shl target.value count.value)⟩
  · exact ⟨_, _, _, rfl, rfl, hshape _, haction (.binary .shr target.value count.value)⟩
  · exact ⟨_, _, _, rfl, rfl, hshape _, haction (.binary .sar target.value count.value)⟩

/-! ## Registers and memory -/

namespace MachineState

variable (world : World) (machine : MachineState)

theorem sameData_foldl_flags {before : MachineState} {flags : Effect} (hflags : flags.FlagsOnly) :
    (flags.foldl (write world before) machine).SameData machine := by
  induction flags generalizing machine with
  | nil => exact ⟨fun _ _ => rfl, rfl⟩
  | cons entry rest ih =>
      obtain ⟨f, hlocation⟩ := hflags entry List.mem_cons_self
      obtain ⟨location, value⟩ := entry
      obtain rfl : location = .flag f := hlocation
      have hrest := ih (write world before machine (.flag f, value))
        fun write hwrite => hflags write (List.mem_cons_of_mem _ hwrite)
      refine ⟨fun symbol hsymbol => (hrest.symbol symbol hsymbol).trans ?_, hrest.memory⟩
      exact Function.update_of_ne (hsymbol f) _ _

theorem SameData.reg {machine other : MachineState} (h : machine.SameData other) (r : Reg) :
    machine.reg r = other.reg r :=
  h.symbol (.reg r) (by simp)

theorem sameData_exec_flags {flags : Effect} (hflags : flags.FlagsOnly) :
    (machine.exec world flags).SameData machine :=
  sameData_foldl_flags world machine hflags

theorem sameData_exec_assign {target : Operand} (hwide : target.isWide) (value : Expr)
    {flags : Effect} (hflags : flags.FlagsOnly) :
    (machine.exec world (target.assign value ++ flags)).SameData
      (machine.put target (value.eval (machine.valuation world))) := by
  rw [← exec_assign world machine hwide, exec, List.foldl_append]
  exact sameData_foldl_flags world _ hflags

theorem symbol_exec_assign_append (target : Operand) (value : Expr) (flags : Effect) (f : Flag) :
    (machine.exec world (target.assign value ++ flags)).symbol (.flag f) =
      (machine.exec world flags).symbol (.flag f) := by
  rw [symbol_exec, Effect.get?_flag_assign_append, ← symbol_exec]

theorem symbol_exec_shape {result : Expr} {flags : Effect} {value : Word}
    (hshape : Lift.Shape (machine.valuation world) result flags value) :
    (machine.exec world flags).symbol (.flag .z) = BinOp.truth (value == 0) ∧
      (machine.exec world flags).symbol (.flag .s) = BinOp.truth value.msb := by
  rw [symbol_exec, symbol_exec, hshape.zero, hshape.sign, ← truth_slt_zero, ← hshape.value_eq]
  exact ⟨rfl, rfl⟩

end MachineState

/-! ## Instructions on words -/

/-- Arithmetic and logic on words. -/
inductive ArithmeticForm : Opcode → List Operand → Prop
  | binary {opcode : Opcode} {target source : Operand}
      (hopcode : opcode ∈ [.add, .sub, .and, .or, .xor]) (htarget : target.isWide)
      (hsource : source.isWide) : ArithmeticForm opcode [target, source]
  | comparison {opcode : Opcode} {first second : Operand} (hopcode : opcode ∈ [.cmp, .test])
      (hfirst : first.isWide) (hsecond : second.isWide) : ArithmeticForm opcode [first, second]
  | step {opcode : Opcode} {target : Operand} (hopcode : opcode ∈ [.inc, .dec, .neg])
      (htarget : target.isWide) : ArithmeticForm opcode [target]
  | complement {target : Operand} (htarget : target.isWide) : ArithmeticForm .not [target]

/-- The other instructions on words. A shift may be counted by any operand, and a narrow
source may be extended to a register. -/
inductive TransferForm : Opcode → List Operand → Prop
  | shift {opcode : Opcode} {target : Operand} (hopcode : opcode ∈ [.shl, .shr, .sar])
      (htarget : target.isWide) (count : Operand) : TransferForm opcode [target, count]
  | move {target source : Operand} (htarget : target.isWide) (hsource : source.isWide) :
      TransferForm .mov [target, source]
  | address {target : Operand} (htarget : target.isWide) (m : MemOperand) :
      TransferForm .lea [target, .mem m]
  | product {target source : Operand} (htarget : target.isWide) (hsource : source.isWide) :
      TransferForm .imul [target, source]
  | scaled {target source factor : Operand} (htarget : target.isWide)
      (hsource : source.isWide) (hfactor : factor.isWide) :
      TransferForm .imul [target, source, factor]
  | extension {opcode : Opcode} {source : Operand} (hopcode : opcode ∈ [.movzx, .movsx])
      (r : Reg) (hsource : source.isNarrow) : TransferForm opcode [.ofReg r, source]
  | signFill : TransferForm .cdq []
  | push {source : Operand} (hsource : source.isWide) : TransferForm .push [source]
  | pop (r : Reg) : TransferForm .pop [.ofReg r]
  | leave : TransferForm .leave []

namespace Opcode

variable (world : World) (machine : MachineState)

/-- The lifted effect leaves the registers and the memory that the processor leaves. -/
def LeavesData (opcode : Opcode) (operands : List Operand) : Prop :=
  ∃ effect next, opcode.effect? operands = some effect ∧
    opcode.next? machine operands = some next ∧ (machine.exec world effect).SameData next

/-- Every flag that the lifted effect gives a value is the one that the processor sets,
and all but the overflow flag are left as the processor leaves them. -/
def LeavesFlags (opcode : Opcode) (operands : List Operand) : Prop :=
  ∃ effect action, opcode.effect? operands = some effect ∧
    opcode.actions? machine operands = some action ∧
    effect.Reports (machine.valuation world) action ∧
    ∀ f, f ≠ .overflow → (action f).Allows (machine.symbol (.flag f.flag))
      ((machine.exec world effect).symbol (.flag f.flag))

variable {world machine} {opcode : Opcode} {operands : List Operand} {target source : Operand}

/-- A lifted instruction that writes its result and then flags. -/
theorem leavesData_assign (htarget : target.isWide) {result : Expr} {flags : Effect}
    (heffect : opcode.effect? operands = some (target.assign result ++ flags))
    (hflags : flags.FlagsOnly)
    (hnext : opcode.next? machine operands =
      some (machine.put target (result.eval (machine.valuation world)))) :
    opcode.LeavesData world machine operands :=
  ⟨_, _, heffect, hnext, machine.sameData_exec_assign world htarget result hflags⟩

theorem leavesFlags_assign {result : Expr} {flags : Effect} {action : StatusFlag → FlagAction}
    (heffect : opcode.effect? operands = some (target.assign result ++ flags))
    (haction : opcode.actions? machine operands = some action)
    (hreports : flags.Reports (machine.valuation world) action)
    (hcomplete : flags.Complete action) :
    opcode.LeavesFlags world machine operands := by
  have hassign := (Effect.reports_assign target result).append hreports
  exact ⟨_, _, heffect, haction, hassign, fun f hf => hassign.allows (hcomplete.assign _ _) hf⟩

theorem leaves_binary (hopcode : opcode ∈ [add, sub, and, or, xor]) (htarget : target.isWide)
    (hsource : source.isWide) :
    opcode.LeavesData world machine [target, source] ∧
      opcode.LeavesFlags world machine [target, source] := by
  obtain ⟨result, flags, outcome, heffect, houtcome, hshape, hreports, hcomplete⟩ :=
    exists_shape_binary hopcode target source (machine.valuation world)
  rw [Operand.eval_value_of_isWide world machine htarget,
    Operand.eval_value_of_isWide world machine hsource] at houtcome
  have hmodel : opcode.next? machine [target, source] = some (machine.put target outcome.result) ∧
      opcode.actions? machine [target, source] = some outcome.action := by
    simp only [List.mem_cons, List.not_mem_nil, or_false] at hopcode
    rcases hopcode with rfl | rfl | rfl | rfl | rfl <;>
      simp only [next?, actions?, houtcome, Option.map_some, and_self]
  rw [← hshape.value_eq] at hmodel
  exact ⟨leavesData_assign htarget heffect hshape.flagsOnly hmodel.1,
    leavesFlags_assign heffect hmodel.2 hreports hcomplete⟩

theorem leaves_comparison (hopcode : opcode ∈ [cmp, test]) (htarget : target.isWide)
    (hsource : source.isWide) :
    opcode.LeavesData world machine [target, source] ∧
      opcode.LeavesFlags world machine [target, source] := by
  obtain ⟨result, flags, outcome, heffect, houtcome, hshape, hreports, hcomplete⟩ :=
    exists_shape_compare hopcode target source (machine.valuation world)
  rw [Operand.eval_value_of_isWide world machine htarget,
    Operand.eval_value_of_isWide world machine hsource] at houtcome
  have hmodel : opcode.next? machine [target, source] = some machine ∧
      opcode.actions? machine [target, source] = some outcome.action := by
    rcases List.mem_pair.mp hopcode with rfl | rfl <;>
      simp only [next?, actions?, houtcome, Option.map_some, and_self]
  exact ⟨⟨_, _, heffect, hmodel.1, machine.sameData_exec_flags world hshape.flagsOnly⟩,
    ⟨_, _, heffect, hmodel.2, hreports, fun f hf => hreports.allows hcomplete hf⟩⟩

theorem leaves_step (hopcode : opcode ∈ [inc, dec, neg]) (htarget : target.isWide) :
    opcode.LeavesData world machine [target] ∧ opcode.LeavesFlags world machine [target] := by
  obtain ⟨result, flags, outcome, heffect, houtcome, hshape, hreports, hcomplete⟩ :=
    exists_shape_unary hopcode target (machine.valuation world) 0
  rw [Operand.eval_value_of_isWide world machine htarget] at houtcome
  have hmodel : opcode.next? machine [target] = some (machine.put target outcome.result) ∧
      opcode.actions? machine [target] = some outcome.action := by
    simp only [List.mem_cons, List.not_mem_nil, or_false] at hopcode
    rcases hopcode with rfl | rfl | rfl <;>
      simp only [next?, actions?, houtcome, Option.map_some, and_self]
  rw [← hshape.value_eq] at hmodel
  exact ⟨leavesData_assign htarget heffect hshape.flagsOnly hmodel.1,
    leavesFlags_assign heffect hmodel.2 hreports hcomplete⟩

/-- Instructions that write one value and no flag. -/
theorem leavesData_write (htarget : target.isWide) {result : Expr} {word : Word}
    (heffect : opcode.effect? operands = some (target.assign result))
    (hresult : result.eval (machine.valuation world) = word)
    (hnext : opcode.next? machine operands = some (machine.put target word)) :
    opcode.LeavesData world machine operands := by
  apply leavesData_assign htarget _ Effect.flagsOnly_nil (hresult ▸ hnext)
  rw [heffect, List.append_nil]

theorem leaves_complement (htarget : target.isWide) :
    Opcode.not.LeavesData world machine [target] ∧
      Opcode.not.LeavesFlags world machine [target] := by
  have hresult : (Expr.unary .not target.value).eval (machine.valuation world) =
      ~~~target.word machine :=
    congrArg (fun word => ~~~word) (Operand.eval_value_of_isWide world machine htarget)
  refine ⟨leavesData_write htarget rfl hresult rfl, ?_⟩
  have heffect : Opcode.not.effect? [target] =
      some (target.assign (.unary .not target.value) ++ []) :=
    congrArg some (List.append_nil _).symm
  exact leavesFlags_assign heffect rfl Effect.reports_nil fun f _ => Or.inl ⟨rfl, rfl⟩

theorem leavesData_shift (hopcode : opcode ∈ [shl, shr, sar]) (htarget : target.isWide)
    (count : Operand) : opcode.LeavesData world machine [target, count] := by
  obtain ⟨result, flags, outcome, heffect, houtcome, hshape, -⟩ :=
    exists_shape_shift hopcode target count (machine.valuation world)
  rw [Operand.eval_value_of_isWide world machine htarget,
    Operand.toNat_eval_value_mod world machine] at houtcome
  have hnext : opcode.next? machine [target, count] =
      some (machine.put target outcome.result) := by
    simp only [List.mem_cons, List.not_mem_nil, or_false] at hopcode
    rcases hopcode with rfl | rfl | rfl <;> simp only [next?, houtcome, Option.map_some]
  rw [← hshape.value_eq] at hnext
  exact leavesData_assign htarget heffect hshape.flagsOnly hnext

theorem leavesData_product (htarget : target.isWide) {a b : Operand} (ha : a.isWide)
    (hb : b.isWide)
    (heffect : imul.effect? operands = some (target.assign (.binary .mul a.value b.value)))
    (hnext : imul.next? machine operands =
      some (machine.put target (signedProduct (a.word machine) (b.word machine)))) :
    imul.LeavesData world machine operands := by
  apply leavesData_write htarget heffect _ hnext
  rw [signedProduct_eq, ← Operand.eval_value_of_isWide world machine ha,
    ← Operand.eval_value_of_isWide world machine hb]
  rfl

theorem leavesData_extension (hopcode : opcode ∈ [movzx, movsx]) (r : Reg)
    (hsource : source.isNarrow) : opcode.LeavesData world machine [.ofReg r, source] := by
  rcases List.mem_pair.mp hopcode with rfl | rfl
  · exact leavesData_write rfl rfl (Operand.eval_extend_unsigned world machine hsource) rfl
  · exact leavesData_write rfl rfl (Operand.eval_extend_signed world machine hsource) rfl

/-! ### The stack -/

theorem eval_offset_reg (r : Reg) (delta : Int) :
    (Lift.offset (.reg r) delta).eval (machine.valuation world) = machine.reg r + toWord delta := by
  have hsum : (Expr.add (.reg r) (.const delta)).Arithmetic :=
    (Expr.arithmetic_reg r).binary (Expr.arithmetic_const delta) rfl
  rw [Lift.offset, Expr.eval_reduce_of_traced hsum.traced]
  rfl

/-- Effects that end in the state of the processor. -/
theorem leavesData_of_eq {effect : Effect} {next : MachineState}
    (heffect : opcode.effect? operands = some effect)
    (hnext : opcode.next? machine operands = some next) (hexec : machine.exec world effect = next) :
    opcode.LeavesData world machine operands :=
  ⟨effect, next, heffect, hnext, ⟨fun _ _ => hexec ▸ rfl, hexec ▸ rfl⟩⟩

theorem leavesData_push (hsource : source.isWide) :
    Opcode.push.LeavesData world machine [source] := by
  have htop : (Lift.offset (.reg .esp) (-4)).eval (machine.valuation world) =
      machine.reg .esp - 4 := by
    rw [eval_offset_reg, toWord_neg, ← BitVec.sub_eq_add_neg]
    rfl
  apply leavesData_of_eq rfl rfl
  simp only [MachineState.exec, Lift.push, List.foldl_cons, List.foldl_nil, MachineState.write,
    htop, Operand.eval_value_of_isWide world machine hsource]
  rfl

/-- The register is loaded from the old top of the stack, and popping the stack pointer
overrides its move. -/
theorem leavesData_pop (r : Reg) : Opcode.pop.LeavesData world machine [.ofReg r] := by
  apply leavesData_of_eq rfl rfl
  by_cases hstack : r = .esp
  · subst hstack
    exact (machine.setReg_setReg .esp _ _).symm
  · have hname : (Operand.ofReg r).asReg? ≠ some .esp := fun h => hstack (Option.some.inj h)
    let loaded := machine.memory.load (machine.reg .esp) 4
    calc machine.exec world (Lift.pop (.ofReg r))
        = (machine.setReg r loaded).setReg .esp
            ((Lift.offset (.reg .esp) 4).eval (machine.valuation world)) := by
          rw [Lift.pop, if_neg hname]
          rfl
      _ = (machine.setReg r loaded).setReg .esp (machine.reg .esp + 4) := by
          rw [eval_offset_reg]
          rfl
      _ = machine.pop r := machine.setReg_comm hstack loaded _

/-- The frame pointer is loaded from the word that it points to. -/
theorem leavesData_leave : Opcode.leave.LeavesData world machine [] := by
  apply leavesData_of_eq rfl rfl
  calc machine.exec world
        [(.reg .esp, Lift.offset (.reg .ebp) 4), (.reg .ebp, .mem (.reg .ebp) 4)]
      = (machine.setReg .esp ((Lift.offset (.reg .ebp) 4).eval (machine.valuation world))).setReg
          .ebp (machine.memory.load (machine.reg .ebp) 4) := rfl
    _ = (machine.setReg .esp (machine.reg .ebp + 4)).setReg .ebp
          (machine.memory.load (machine.reg .ebp) 4) := by
        rw [eval_offset_reg]
        rfl
    _ = (machine.setReg .esp (machine.reg .ebp)).pop .ebp := by
        rw [MachineState.pop, MachineState.reg_setReg, MachineState.setReg_setReg]
        rfl

theorem leavesData_signFill : cdq.LeavesData world machine [] := by
  apply leavesData_of_eq rfl rfl
  rw [extractLsb_signExtend]
  rfl

/-! ### All forms -/

theorem leaves_of_arithmeticForm (hform : ArithmeticForm opcode operands) :
    opcode.LeavesData world machine operands ∧ opcode.LeavesFlags world machine operands := by
  cases hform with
  | binary hopcode htarget hsource => exact leaves_binary hopcode htarget hsource
  | comparison hopcode hfirst hsecond => exact leaves_comparison hopcode hfirst hsecond
  | step hopcode htarget => exact leaves_step hopcode htarget
  | complement htarget => exact leaves_complement htarget

theorem leavesData_of_transferForm (hform : TransferForm opcode operands) :
    opcode.LeavesData world machine operands := by
  cases hform with
  | shift hopcode htarget count => exact leavesData_shift hopcode htarget count
  | move htarget hsource =>
      exact leavesData_write htarget rfl (Operand.eval_value_of_isWide world machine hsource) rfl
  | address htarget m => exact leavesData_write htarget rfl (m.eval_address world machine) rfl
  | product htarget hsource => exact leavesData_product htarget htarget hsource rfl rfl
  | scaled htarget hsource hfactor => exact leavesData_product htarget hsource hfactor rfl rfl
  | extension hopcode r hsource => exact leavesData_extension hopcode r hsource
  | signFill => exact leavesData_signFill
  | push hsource => exact leavesData_push hsource
  | pop r => exact leavesData_pop r
  | leave => exact leavesData_leave

/-- Lifted instructions on words leave what the processor leaves. A write to a narrow view
of a register changes its low bits only, and the view is then read as those bits. -/
theorem lift_follows_processor (world : World) (machine : MachineState) :
    (∀ opcode operands, ArithmeticForm opcode operands →
      opcode.LeavesData world machine operands ∧ opcode.LeavesFlags world machine operands) ∧
    (∀ opcode operands, TransferForm opcode operands →
      opcode.LeavesData world machine operands) ∧
    ∀ (r : Reg) (size : Nat) (value : Expr), size = 1 ∨ size = 2 →
      let after := machine.exec world ((Operand.reg r size).assign value)
      let word := value.eval (machine.valuation world)
      machine.ViewWritten after r size word ∧
        (Operand.reg r size).value.eval (after.valuation world) =
          (word.setWidth (8 * size)).setWidth 32 := by
  refine ⟨fun _ _ hform => leaves_of_arithmeticForm hform,
    fun _ _ hform => leavesData_of_transferForm hform, fun r size value hsize => ?_⟩
  have hwritten := machine.viewWritten_exec_assign world hsize r value
  exact ⟨hwritten, hwritten.eval_value world hsize⟩

end Opcode

/-! ### A stack of ones -/

namespace OnesOnStack

def machine : MachineState := .only .esp 0x1000 0xff

def top : Operand := .mem { base := some .esp }

/-- Taking `-1` from zero leaves one and borrows, and popping the stack pointer leaves it
at `-1` without a move. -/
theorem sub_and_pop_top :
    ArithmeticForm .sub [.ofReg .eax, top] ∧ TransferForm .pop [.ofReg .esp] ∧
      (∃ effect, Opcode.sub.effect? [.ofReg .eax, top] = some effect ∧
        (machine.exec .silent effect).reg .eax = 1 ∧
        (machine.exec .silent effect).symbol (.flag .c) = 1) ∧
      ∃ effect, Opcode.pop.effect? [.ofReg .esp] = some effect ∧
        (machine.exec .silent effect).reg .esp = 0xffffffff := by
  have hsub : ArithmeticForm .sub [.ofReg .eax, top] := .binary (by decide) rfl rfl
  obtain ⟨hforms, htransfers, -⟩ := Opcode.lift_follows_processor .silent machine
  obtain ⟨⟨effect, next, heffect, hnext, hdata⟩, ⟨_, action, hsame, haction, -, hflags⟩⟩ :=
    hforms .sub _ hsub
  obtain ⟨popEffect, popped, hpop, hpopped, hpopData⟩ := htransfers .pop _ (.pop .esp)
  cases heffect.symm.trans hsame
  cases hnext
  cases haction
  cases hpopped
  refine ⟨hsub, .pop .esp, ⟨effect, heffect, ?_, ?_⟩, popEffect, hpop, ?_⟩
  · exact (hdata.reg .eax).trans (by decide)
  · exact (hflags .carry (by decide)).trans (by decide)
  · exact (hpopData.reg .esp).trans (by decide)

end OnesOnStack

end Uncompile
