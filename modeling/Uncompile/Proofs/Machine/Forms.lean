import Uncompile.Proofs.Machine.LiftForm

/-!
# Lifted instructions by kind

The kind of a lifted instruction determines its effect, but for plain instructions. Kinds
that stand for one opcode have the effect of that opcode on their operands; where the
operands do not fit there is none.
-/

namespace Uncompile

/-- The register that holds a descriptor table. -/
def DescriptorTable.register : DescriptorTable → SpecialReg
  | .segments => .gdtr
  | .interrupts => .idtr

/-- The register that a selector is loaded to. -/
def SystemLoad.register : SystemLoad → SpecialReg
  | .task => .tr
  | .localTable => .ldtr

/-- Kinds whose instructions leave registers, memory and ports alone. -/
def Kind.isIdle : Kind → Bool
  | .jcc _ | .call | .jmp | .passthrough | .unmodeled => true
  | _ => false

/-- Kinds that become calls of intrinsics, moves apart. -/
def Kind.isIntrinsic : Kind → Bool
  | .descriptorTable _ | .systemLoad _ | .portOut | .portIn => true
  | _ => false

namespace Instruction

/-- What the effect of an instruction is, by its kind. -/
inductive Form (insn : Instruction) : Prop
  | plain (hkind : insn.kind = .plain)
  | idle (hkind : insn.kind.isIdle) (heffect : insn.effect = [])
  | loop {cc : Option Condition} (hkind : insn.kind = .loop cc)
      (heffect : insn.effect = [(.reg .ecx, Lift.offset (.reg .ecx) (-1))])
  | ret (hkind : insn.kind = .ret) (heffect : insn.effect = Lift.ret insn.operands)
  | setSpecial {r : SpecialReg} {source : Operand} (hkind : insn.kind = .movToSpecial r)
      (hoperands : insn.operands = [.special r, source])
      (heffect : insn.effect = [(.sym (.special r), source.value)])
  | getSpecial {r : SpecialReg} {target : Operand} (hkind : insn.kind = .movFromSpecial r)
      (hoperands : insn.operands = [target, .special r])
      (htarget : ∀ other, target ≠ .special other)
      (heffect : insn.effect = target.assign (.sym (.special r)))
  | loadTable {table : DescriptorTable} {m : MemOperand}
      (hkind : insn.kind = .descriptorTable table) (hoperands : insn.operands = [.mem m])
      (heffect : insn.effect = [(.sym (.special table.register), .mem m.address 6)])
  | systemLoad {load : SystemLoad} {source : Operand} (hkind : insn.kind = .systemLoad load)
      (hoperands : insn.operands = [source])
      (heffect : insn.effect = [(.sym (.special load.register), source.value)])
  | portOut {port source : Operand} (hkind : insn.kind = .portOut)
      (hoperands : insn.operands = [port, source])
      (heffect : insn.effect = [(.port port.value source.size, source.value)])
  | portIn {target port : Operand} (hkind : insn.kind = .portIn)
      (hoperands : insn.operands = [target, port])
      (heffect : insn.effect = target.assign (.port port.value target.size))
  /-- The operands do not fit. -/
  | misfit (hkind : insn.kind.isIntrinsic) (hnone : insn.opcode.effect? insn.operands = none)
      (heffect : insn.effect = [])

theorem Lifted.form {insn : Instruction} (hlifted : insn.Lifted) : insn.Form := by
  have heffect := hlifted.effect_eq
  have hkind : insn.kind = insn.opcode.kind insn.operands insn.altersControlFlow
    insn.terminatesBlock := rfl
  generalize hopcode : insn.opcode = opcode at heffect hkind
  generalize hoperands : insn.operands = operands at heffect hkind
  have hmisfit : insn.kind.isIntrinsic → opcode.effect? operands = none → insn.Form := by
    intro hintrinsic hnone
    rw [hnone] at heffect
    exact .misfit hintrinsic (by rw [hopcode, hoperands, hnone]) heffect
  cases opcode with
  | ret => exact .ret hkind (hoperands ▸ heffect)
  | loop cc => exact .loop hkind heffect
  | call | jmp | sti | cli | hlt | iret | other => exact .idle (hkind ▸ rfl) heffect
  | jcc cc =>
      refine .idle ?_ heffect
      rw [hkind, Opcode.kind]
      split <;> rfl
  | mov =>
      dsimp only [Opcode.kind] at hkind
      split at hkind
      · exact .setSpecial hkind hoperands heffect
      · rename_i target r hother
        exact .getSpecial hkind hoperands hother heffect
      · exact .plain hkind
  | lgdt | lidt =>
      rcases operands with _ | ⟨first, _ | ⟨second, more⟩⟩
      · exact hmisfit (hkind ▸ rfl) rfl
      · cases first with
        | mem m => exact .loadTable hkind hoperands heffect
        | _ => exact hmisfit (hkind ▸ rfl) rfl
      · exact hmisfit (hkind ▸ rfl) (by cases first <;> rfl)
  | ltr | lldt =>
      rcases operands with _ | ⟨source, _ | ⟨second, more⟩⟩
      · exact hmisfit (hkind ▸ rfl) rfl
      · exact .systemLoad hkind hoperands heffect
      · exact hmisfit (hkind ▸ rfl) rfl
  | portIn =>
      rcases operands with _ | ⟨target, _ | ⟨port, _ | ⟨third, more⟩⟩⟩
      · exact hmisfit (hkind ▸ rfl) rfl
      · exact hmisfit (hkind ▸ rfl) rfl
      · exact .portIn hkind hoperands heffect
      · exact hmisfit (hkind ▸ rfl) rfl
  | portOut =>
      rcases operands with _ | ⟨port, _ | ⟨source, _ | ⟨third, more⟩⟩⟩
      · exact hmisfit (hkind ▸ rfl) rfl
      · exact hmisfit (hkind ▸ rfl) rfl
      · exact .portOut hkind hoperands heffect
      · exact hmisfit (hkind ▸ rfl) rfl
  | _ => exact .plain hkind

end Instruction

end Uncompile
