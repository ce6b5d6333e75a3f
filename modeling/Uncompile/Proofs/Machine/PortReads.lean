import Uncompile.Proofs.Machine.LiftForm

/-!
# Where ports are read

Of all lifted effects, only that of an input reads a port, and only that of an output
names one as a place. Substituting values that read no port and reducing gives values
that read none.
-/

namespace Uncompile

/-! ## Expressions -/

/-- The expressions that read no port. -/
def Vocabulary.portless : Vocabulary :=
  { Vocabulary.ofSymbols fun _ => True with port := False }

namespace Expr

/-- Whether the expression reads a port. -/
@[simp]
def readsPort : Expr → Bool
  | const _ | sym _ => false
  | mem ptr _ => ptr.readsPort
  | port _ _ => true
  | unary _ arg => arg.readsPort
  | binary _ lhs rhs => lhs.readsPort || rhs.readsPort

variable {e : Expr}

theorem within_portless_iff : e.Within .portless ↔ e.readsPort = false := by
  induction e with
  | const value => simp [Within, Vocabulary.portless, Vocabulary.ofSymbols]
  | sym symbol => simp [Within, Vocabulary.portless, Vocabulary.ofSymbols]
  | mem ptr size ih => simpa [Within, Vocabulary.portless, Vocabulary.ofSymbols] using ih
  | port p size => simp [Within, Vocabulary.portless]
  | unary op arg ih => simpa [Within] using ih
  | binary op lhs rhs ihl ihr =>
      simp only [Within, ihl, ihr, readsPort, Bool.or_eq_false_iff]
      exact and_iff_right trivial

@[simp]
theorem readsPort_reg (r : Reg) : (reg r).readsPort = false := by rw [reg, readsPort]

/-- Reduction brings in no port. -/
theorem readsPort_reduce (he : e.readsPort = false) : e.reduce.readsPort = false :=
  within_portless_iff.mp (within_reduce (within_portless_iff.mpr he))

theorem readsPort_bind {binding : Binding} (he : e.readsPort = false)
    (hbinding : ∀ symbol value, binding.get? symbol = some value → value.readsPort = false) :
    (e.bind binding).readsPort = false :=
  within_portless_iff.mp (within_bind (within_portless_iff.mpr he)
    fun symbol value _ hvalue => within_portless_iff.mpr (hbinding symbol value hvalue))

/-- What is at a fixed distance from the frame reads no port. -/
theorem readsPort_of_frameOffset? {offset : Int} (h : e.frameOffset? = some offset) :
    e.readsPort = false := by
  unfold frameOffset? at h
  split at h
  · rfl
  · rfl
  · rfl
  · rfl
  · cases h

@[simp]
theorem readsPort_frame (offset : Int) : (frame offset).readsPort = false :=
  readsPort_of_frameOffset? (frameOffset?_frame offset)

end Expr

@[simp]
theorem readsPort_offset {base : Expr} (hbase : base.readsPort = false) (delta : Int) :
    (Lift.offset base delta).readsPort = false :=
  Expr.readsPort_reduce (by simp [Expr.add, hbase])

@[simp]
theorem MemOperand.readsPort_address (m : MemOperand) : m.address.readsPort = false := by
  apply Expr.readsPort_reduce
  cases m.base <;> cases m.index <;> simp [Expr.add]

@[simp]
theorem Operand.readsPort_value (operand : Operand) : operand.value.readsPort = false := by
  cases operand with
  | reg r size =>
      rw [Operand.value]
      split <;> simp
  | special r => rfl
  | imm value => rfl
  | mem m => exact m.readsPort_address

theorem Condition.readsPort_toExpr (cc : Condition) : cc.toExpr.readsPort = false := by
  cases cc <;> rfl

/-! ## Effects -/

namespace Location

@[simp]
theorem readsPort_sym (symbol : Symbol) : (sym symbol).toExpr.readsPort = false := rfl

@[simp]
theorem readsPort_reg (r : Reg) : (reg r).toExpr.readsPort = false := rfl

@[simp]
theorem readsPort_flag (f : Flag) : (flag f).toExpr.readsPort = false := rfl

@[simp]
theorem readsPort_mem (ptr : Expr) (size : Nat) :
    (mem ptr size).toExpr.readsPort = ptr.readsPort := rfl

end Location

/-- No value and no place of an effect reads a port. -/
def Effect.PortFree (effect : Effect) : Prop :=
  ∀ write ∈ effect, write.1.toExpr.readsPort = false ∧ write.2.readsPort = false

namespace Effect

theorem portFree_nil : Effect.PortFree [] := List.forall_mem_nil _

@[simp]
theorem portFree_cons {write : Location × Expr} {rest : Effect} :
    Effect.PortFree (write :: rest) ↔
      (write.1.toExpr.readsPort = false ∧ write.2.readsPort = false) ∧ rest.PortFree :=
  List.forall_mem_cons

@[simp]
theorem portFree_append {first second : Effect} :
    Effect.PortFree (first ++ second) ↔ first.PortFree ∧ second.PortFree :=
  List.forall_mem_append

@[simp]
theorem portFree_assign {value : Expr} (hvalue : value.readsPort = false) (target : Operand) :
    (target.assign value).PortFree := by
  cases target with
  | reg r size =>
      rw [Operand.assign, Operand.assign?]
      split <;> simp [portFree_nil, hvalue]
  | special r => simp [Operand.assign, Operand.assign?, portFree_nil, hvalue]
  | imm value => exact portFree_nil
  | mem m => simp [Operand.assign, Operand.assign?, portFree_nil, hvalue]

@[simp]
theorem portFree_resultFlags {result : Expr} (hresult : result.readsPort = false) :
    (Lift.resultFlags result).PortFree := by
  simp [Lift.resultFlags, portFree_nil, hresult]

@[simp]
theorem portFree_compareFlags {a b : Expr} (ha : a.readsPort = false) (hb : b.readsPort = false) :
    (Lift.compareFlags a b).PortFree := by
  simp [Lift.compareFlags, portFree_nil, ha, hb]

@[simp]
theorem portFree_logicFlags {result : Expr} (hresult : result.readsPort = false) :
    (Lift.logicFlags result).PortFree := by
  simp [Lift.logicFlags, portFree_nil, hresult]

end Effect

@[simp]
theorem readsPort_extend (source : Operand) (signed : Bool) :
    (Lift.extend source signed).readsPort = false := by
  rw [Lift.extend]
  split
  · exact source.readsPort_value
  · cases signed <;> simp

/-- Only an input reads a port, and only an output writes to one. -/
theorem Opcode.portFree_effect? {opcode : Opcode} {operands : List Operand} {effect : Effect}
    (hinput : opcode ≠ .portIn) (houtput : opcode ≠ .portOut)
    (heffect : opcode.effect? operands = some effect) : effect.PortFree := by
  unfold Opcode.effect? at heffect
  split at heffect <;> simp only [Option.some.injEq, reduceCtorEq] at heffect <;>
    subst heffect
  case h_8 target =>
    rw [Lift.pop]
    split <;> simp [Effect.portFree_nil]
  case h_37 => exact absurd rfl hinput
  case h_38 => exact absurd rfl houtput
  all_goals
    simp [Effect.portFree_nil, Lift.push, Lift.add, Lift.sub, Lift.bitwise, Lift.step, Lift.neg,
      Lift.shift, Lift.mulAccumulator, Lift.divAccumulator, Lift.ret, Expr.add]

/-! ## Instructions -/

namespace Instruction

theorem readsPort_of_target? {insn : Instruction} {value : Expr}
    (h : insn.target? = some (.indirect value)) : value.readsPort = false := by
  rw [target?] at h
  split at h
  · cases h
  · cases h
  · cases h
  · cases h
    exact Operand.readsPort_value _

theorem opcode_of_port {insn : Instruction} (hkind : insn.kind = .portIn ∨ insn.kind = .portOut) :
    insn.opcode = .portIn ∨ insn.opcode = .portOut := by
  unfold kind Opcode.kind at hkind
  split at hkind
  case h_5 => split at hkind <;> simp at hkind
  case h_10 hopcode => exact Or.inr hopcode
  case h_11 hopcode => exact Or.inl hopcode
  case h_14 => split at hkind <;> simp at hkind
  all_goals simp at hkind

/-- The instruction has the effect that its mnemonic implies. -/
def HasLiftedEffect (insn : Instruction) : Prop :=
  insn.effect = (insn.opcode.effect? insn.operands).getD []

namespace HasLiftedEffect

variable {insn : Instruction} (hlifted : insn.HasLiftedEffect)

include hlifted

theorem portFree (hinput : insn.kind ≠ .portIn) (houtput : insn.kind ≠ .portOut) :
    insn.effect.PortFree := by
  rw [HasLiftedEffect] at hlifted
  rw [hlifted]
  cases heffect : insn.opcode.effect? insn.operands with
  | none => exact Effect.portFree_nil
  | some effect =>
      apply Opcode.portFree_effect? _ _ heffect
      · intro hopcode
        exact hinput (by rw [kind, hopcode]; rfl)
      · intro hopcode
        exact houtput (by rw [kind, hopcode]; rfl)

/-- Unless it has two operands, access to a port has no known effect. -/
theorem portFree_of_operands (hkind : insn.kind = .portIn ∨ insn.kind = .portOut)
    (hoperands : ∀ first second, insn.operands ≠ [first, second]) : insn.effect.PortFree := by
  have hnone : insn.opcode.effect? insn.operands = none := by
    rcases opcode_of_port hkind with hopcode | hopcode
    all_goals
      rw [hopcode]
      rcases hlist : insn.operands with _ | ⟨first, _ | ⟨second, _ | ⟨third, rest⟩⟩⟩
      · rfl
      · rfl
      · exact absurd hlist (hoperands first second)
      · rfl
  rw [HasLiftedEffect, hnone] at hlifted
  rw [hlifted]
  exact Effect.portFree_nil

end HasLiftedEffect

end Instruction

end Uncompile
