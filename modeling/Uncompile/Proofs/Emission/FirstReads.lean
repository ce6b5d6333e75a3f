import Uncompile.Proofs.Emission.Accounts
import Uncompile.Proofs.Machine.Forms

/-!
# What the statements of a block read first

The statements of a block without calls read a register or flag before they assign it only
if the dependency analysis counts it as read by the block. Lowering an instruction keeps
the account of the block, with what the analysis adds for the instruction, so the account
holds at the end of the block.
-/

namespace Uncompile

/-! ## Instructions -/

/-- Conditions are about flags and the counter. -/
theorem Condition.isNamed_of_references {cc : Condition} {read : Symbol}
    (href : cc.toExpr.references read) : read.isNamed = false := by
  rw [Expr.references_iff_mem_symbols] at href
  cases cc
  all_goals
    simp only [toExpr, less, notLess, Expr.flag, Expr.reg, Expr.symbols, List.mem_append,
      List.mem_singleton, List.not_mem_nil, or_false] at href
    grind [Symbol.isNamed]

namespace Operand

theorem isNamed_of_references {operand : Operand} {read : Symbol}
    (href : operand.value.references read) : read.isNamed = false :=
  Expr.isNamed_of_operands operand.arithmetic_value.operands read href

/-- A value that is written to a register or a view of it is part of what is written. -/
theorem exists_assign_of_asReg? {target : Operand} {r : Reg} (h : target.asReg? = some r)
    (value : Expr) : ∃ entry ∈ target.assign value, value.symbols ⊆ entry.2.symbols := by
  cases target with
  | reg register size =>
      rw [assign, assign?]
      split
      · exact ⟨_, List.mem_singleton_self _, List.Subset.refl _⟩
      · refine ⟨_, List.mem_singleton_self _, ?_⟩
        intro symbol hsymbol
        simp [Expr.symbols, hsymbol]
  | special | imm | mem => cases h

end Operand

theorem Counts.subset {managed : Symbol → Bool} {reads writes symbols fewer : List Symbol}
    (h : Counts managed reads writes symbols) (hsubset : fewer ⊆ symbols) :
    Counts managed reads writes fewer := fun symbol hsymbol => h symbol (hsubset hsymbol)

namespace Instruction

variable {insn : Instruction} {managed : Symbol → Bool} {reads writes : List Symbol}

/-- A register or a view of it is written as a whole. -/
theorem effectWrites_of_assign {r : Reg} {size : Nat} {value : Expr}
    (heffect : insn.effect = (Operand.reg r size).assign value) :
    insn.effectWrites = [.reg r] := by
  rw [effectWrites, heffect, Operand.assign, Operand.assign?]
  split <;> rfl

/-- The analysis keeps no count of special registers. -/
theorem counts_of_special {r : SpecialReg} {value : Expr}
    (heffect : insn.effect = [(.sym (.special r), value)]) :
    Counts managed reads writes insn.effectWrites := by
  intro symbol hsymbol htracked
  rw [effectWrites, heffect] at hsymbol
  rw [List.mem_singleton.mp hsymbol] at htracked
  exact absurd htracked.1 Bool.false_ne_true

/-- What is written where an instruction has one write is allowed. -/
theorem counts_value {location : Location} {value : Expr}
    (hreads : Counts managed reads writes (AnalysisContext.effectReads insn))
    (heffect : insn.effect = [(location, value)]) : Counts managed reads writes value.symbols := by
  have hentry : (location, value) ∈ insn.effect := heffect ▸ List.mem_singleton_self _
  exact hreads.subset (AnalysisContext.value_subset_effectReads hentry)

end Instruction

/-- The analysis that goes with the lowering of a block. -/
def BlockContext.analysis (context : BlockContext) (table : DeclTable) : AnalysisContext :=
  { scope := context.scope, declarations := table, config := context.config }

namespace BlockContext

variable (context : BlockContext) (table : DeclTable) {insn : Instruction}
  {managed : Symbol → Bool} {reads writes : List Symbol}

/-- The values and addresses of a plain effect are allowed. -/
theorem allowed_of_plain (hlifted : insn.Lifted) (hplain : insn.kind = .plain)
    (hreads : Counts managed reads writes (AnalysisContext.effectReads insn))
    {write : Location × Expr} (hwrite : write ∈ insn.effect) :
    write.2.Allowed managed reads writes ∧
      ∀ address, write.1.address? = some address → address.Allowed managed reads writes := by
  have hvalue := hreads.subset (AnalysisContext.value_subset_effectReads hwrite)
  have hform := hlifted.writeForm (Instruction.opcode_ne_portOut_of_plain hplain) write hwrite
  cases hform with
  | symbol _ hoperands _ =>
      refine ⟨⟨Expr.isNamed_of_operands hoperands, hvalue⟩, ?_⟩
      intro address haddress
      cases haddress
  | memory size hptr hstored =>
      refine ⟨⟨Expr.isNamed_of_operands hstored.operands, hvalue⟩, ?_⟩
      intro address haddress
      have hsubset := AnalysisContext.address_subset_effectReads hwrite haddress
      cases haddress
      exact ⟨Expr.isNamed_of_operands hptr.operands, hreads.subset hsubset⟩

theorem keepsAccount_plain (hlifted : insn.Lifted) (hplain : insn.kind = .plain)
    (hreads : Counts context.scope.isManaged reads writes (AnalysisContext.effectReads insn))
    (l : Lowering) :
    l.KeepsAccount context.scope.isManaged reads writes (writes ++ insn.effectWrites)
      (context.plain insn l) := by
  have hallowed := fun write (hwrite : write ∈ insn.effect) =>
    allowed_of_plain hlifted hplain hreads hwrite
  have hready : l.KeepsAccount context.scope.isManaged reads writes writes
      (context.ready insn l) := by
    rw [ready]
    split
    · exact context.keepsAccount_commit _ _ l
    · exact .of_eq rfl rfl
  intro segment haccount
  obtain ⟨committed, hbody, hcommitted⟩ := hready segment haccount
  have hstores : Accounts context.scope.isManaged reads writes
      (segment ++ committed ++ storeStmts (context.ready insn l) insn.effect)
      (context.ready insn l).state := by
    apply hcommitted.append
    intro stmt hstmt symbol htracked hread
    obtain ⟨write, hwrite, rfl⟩ := List.mem_map.mp hstmt
    obtain ⟨hmem, hstore⟩ := List.mem_filter.mp hwrite
    obtain ⟨hvalue, haddress⟩ := hallowed write hmem
    rcases Stmt.mem_vars_of_mem_reads hread with hread | hread
    · refine hcommitted.covered_vars ?_ htracked hread
      cases hlocation : write.1 with
      | sym other => simp [hlocation, Location.asSymbol?] at hstore
      | mem ptr size =>
          obtain ⟨hunnamed, hcounts⟩ := haddress ptr (by rw [hlocation]; rfl)
          exact ⟨hunnamed, hcounts⟩
      | port p size =>
          obtain ⟨hunnamed, hcounts⟩ := haddress p (by rw [hlocation]; rfl)
          exact ⟨hunnamed, hcounts⟩
    · exact hcommitted.covered_vars hvalue htracked hread
  refine ⟨committed ++ storeStmts (context.ready insn l) insn.effect, ?_, ?_⟩
  · rw [body_plain, hbody, List.append_assoc]
  · rw [← List.append_assoc]
    apply hstores.takeAll (fun symbol value hmem => (hallowed _ hmem).1) rfl
    exact haccount.framed.evolves (fun _ _ => hlifted.symbol_write) (context.evolves_plain .refl)

/-- The formula of a condition can be evaluated where its symbols are accounted for. -/
theorem keepsAccount_jcc {cc : Condition}
    (hreads : Counts managed reads writes cc.toExpr.symbols) (l : Lowering) :
    l.KeepsAccount managed reads writes writes
      (context.branch insn ((context.commit context.required never l).eval cc.toExpr)
        (context.commit context.required never l)) := by
  refine (context.keepsAccount_commit _ _ l).trans (context.keepsAccount_branch ?_)
  intro segment symbol haccount htracked hmem
  exact haccount.covered_vars ⟨fun _ => Condition.isNamed_of_references, hreads⟩ htracked hmem

/-- A loop reads the variable of its counter, in which its value is by then. -/
theorem keepsAccount_loop {cc : Option Condition}
    (hcounter : Counts context.scope.isManaged reads writes [.reg .ecx])
    (hreads : ∀ code ∈ cc, Counts context.scope.isManaged reads writes code.toExpr.symbols)
    (l : Lowering) :
    l.KeepsAccount context.scope.isManaged reads writes writes (context.loop insn cc l) := by
  intro segment haccount
  have hunbound : (Symbol.reg .ecx).Tracked context.scope.isManaged →
      (context.counted l).state.live.get? (.reg .ecx) = none := fun htracked =>
    get?_counter_counted haccount.framed htracked.2
  have hcovered : ∀ segment, Accounts context.scope.isManaged reads writes segment
      (context.counted l).state → ∀ symbol : Symbol, symbol.Tracked context.scope.isManaged →
        symbol.text ∈ (CExpr.preDec (.ofSymbol (.reg .ecx))).vars →
        Covered reads segment symbol := by
    intro segment haccount symbol htracked hmem
    have hnamed := Symbol.isNamed_of_onProcessor (Symbol.onProcessor_of_isRegister htracked.1)
    obtain rfl := Symbol.text_injective hnamed rfl (List.mem_singleton.mp hmem)
    rcases hcounter _ (List.mem_singleton_self _) htracked with hread | hwritten
    · exact .inl hread
    · refine (haccount.written htracked hwritten).resolve_left ?_
      simp [hunbound htracked]
  refine ((context.keepsAccount_commit _ _ l).trans
    (context.keepsAccount_branch (l := context.counted l) ?_)) segment haccount
  intro segment symbol haccount htracked hmem
  cases cc with
  | none => exact hcovered segment haccount symbol htracked hmem
  | some code =>
      rw [CExpr.mem_vars_iff] at hmem
      cases hmem with
      | left h => exact hcovered segment haccount symbol htracked (CExpr.mem_vars_iff.mpr h)
      | right h =>
          exact haccount.covered_vars ⟨fun _ => Condition.isNamed_of_references, hreads code rfl⟩
            htracked (CExpr.mem_vars_iff.mpr h)

/-- A return reads the return register and moves the stack pointer, which the frame
manages. -/
theorem keepsAccount_ret (heffect : insn.effect = Lift.ret insn.operands)
    (hreads : Counts context.scope.isManaged reads writes [.reg context.config.returnRegister])
    (l : Lowering) :
    l.KeepsAccount context.scope.isManaged reads writes (writes ++ insn.effectWrites)
      ((context.commit context.required never l).emit (.ret (some
        ((context.commit context.required never l).eval
          (.reg context.config.returnRegister))))) := by
  have hallowed : (Expr.reg context.config.returnRegister).Allowed context.scope.isManaged
      reads writes := by
    refine ⟨?_, hreads⟩
    intro read href
    obtain rfl : Symbol.reg _ = read := by simpa [Expr.reg, Expr.references] using href
    rfl
  apply Lowering.KeepsAccount.addWrites
  · exact (context.keepsAccount_commit _ _ l).trans
      (.emit _ fun name hname => ⟨_, hallowed, hname⟩)
  · intro symbol hsymbol htracked
    rw [Instruction.effectWrites, heffect] at hsymbol
    rw [List.mem_singleton.mp hsymbol] at htracked
    exact absurd htracked.2 (by simp [FrameScope.isManaged])

/-- A tail call reads its target. -/
theorem keepsAccount_jump (hwrites : insn.effectWrites = []) (hkind : insn.kind = .jmp)
    (hreads : Counts managed reads writes ((context.analysis table).controlReads insn))
    (l : Lowering) : l.KeepsAccount managed reads writes writes (context.jump insn l) := by
  rw [jump]
  split
  · exact .of_eq rfl rfl
  · exact context.keepsAccount_unmodeled hwrites l
  · exact context.keepsAccount_unmodeled hwrites l
  · rename_i operand more himm _ hoperands
    have hallowed : operand.value.Allowed managed reads writes := by
      refine ⟨fun _ => Operand.isNamed_of_references, hreads.subset ?_⟩
      cases operand with
      | imm value => exact absurd rfl (himm value)
      | _ =>
          intro symbol hsymbol
          simpa [AnalysisContext.controlReads, hkind, hoperands, Operand.isImm] using hsymbol
    have hcommitted : l.KeepsAccount managed reads writes writes
        { context.commit context.required never l with successors := [] } :=
      (context.keepsAccount_commit context.required never l).trans (.of_eq rfl rfl)
    exact hcommitted.trans
      (.emit _ fun name hname => ⟨_, hallowed, CExpr.mem_vars_callPointer hname⟩)

/-- The source of a move to a special register may be narrowed. -/
theorem keepsAccount_setSpecial {r : SpecialReg} {target source : Operand}
    (hoperands : insn.operands = [target, source])
    (hreads : Counts managed reads writes source.value.symbols) (l : Lowering) :
    l.KeepsAccount managed reads writes writes (setSpecial insn r l) := by
  have hallowed : source.value.Allowed managed reads writes :=
    ⟨fun _ => Operand.isNamed_of_references, hreads⟩
  simp only [setSpecial, hoperands, List.getElem?_cons_succ, List.getElem?_cons_zero,
    Option.map_some, Option.getD_some]
  apply keepsAccount_intrinsic (l := l) rfl rfl
  intro segment symbol haccount htracked arg harg hmem
  rw [List.mem_singleton.mp harg] at hmem
  apply haccount.covered_eval hallowed htracked
  have hunnamed := haccount.framed.unnamed_eval hallowed.unnamed
  split at hmem
  · have hmask : ∀ read,
        (Expr.binary .and (l.state.eval source.value) (.const 0xffff)).reduce.references read →
        (l.state.eval source.value).references read := by
      intro read href
      simpa [Expr.references] using Expr.references_of_references_reduce href
    exact hmask symbol (Accounts.references_of_mem_vars
      (fun read href => hunnamed read (hmask read href)) htracked hmem)
  · exact Accounts.references_of_mem_vars hunnamed htracked hmem

/-- A special register is read into the variable of a register. Memory that it is stored
to is left to inline assembly. -/
theorem keepsAccount_getSpecial {r : SpecialReg} {target source : Operand}
    (hoperands : insn.operands = [target, source]) {value : Expr}
    (heffect : insn.effect = target.assign value) (htarget : ∀ other, target ≠ .special other)
    (l : Lowering) :
    l.KeepsAccount managed reads writes (writes ++ insn.effectWrites)
      (context.getSpecial insn r l) := by
  have hdeclared : l.KeepsAccount managed reads writes writes
      (l.declare ("intrinsic_get_" ++ r.text) (.int r.bits) []) := .of_eq rfl rfl
  simp only [getSpecial, hoperands, List.head?_cons, Option.bind_some]
  cases target with
  | reg register size =>
      rw [Instruction.effectWrites_of_assign heffect]
      refine hdeclared.trans ((context.keepsAccount_receive ?_).mono (by simp))
      intro segment symbol _ _ hmem
      obtain ⟨arg, harg, -⟩ := CExpr.mem_vars_call hmem
      exact absurd harg List.not_mem_nil
  | special other => exact absurd rfl (htarget other)
  | imm | mem =>
      have hwrites : insn.effectWrites = [] := by
        rw [Instruction.effectWrites, heffect]
        rfl
      rw [hwrites, List.append_nil]
      exact hdeclared.trans (context.keepsAccount_unmodeled hwrites _)

theorem keepsAccount_loadTable {m : MemOperand} (hoperands : insn.operands = [.mem m])
    (hreads : Counts managed reads writes m.address.symbols) (descriptors : DescriptorTable)
    (l : Lowering) :
    l.KeepsAccount managed reads writes writes (context.loadTable insn descriptors l) := by
  simp only [loadTable, hoperands]
  cases descriptors
  all_goals
    apply keepsAccount_intrinsic (l := l) rfl rfl
    intro segment symbol haccount htracked arg harg hmem
    rw [List.mem_singleton.mp harg] at hmem
    exact haccount.covered_vars ⟨Expr.isNamed_of_operands m.arithmetic_address.operands, hreads⟩
      htracked hmem

theorem keepsAccount_systemLoad {source : Operand} (hoperands : insn.operands = [source])
    (hreads : Counts managed reads writes source.value.symbols) (load : SystemLoad)
    (l : Lowering) :
    l.KeepsAccount managed reads writes writes (context.systemLoad insn load l) := by
  simp only [systemLoad, hoperands]
  apply keepsAccount_intrinsic (l := l) rfl rfl
  intro segment symbol haccount htracked arg harg hmem
  rw [List.mem_singleton.mp harg] at hmem
  exact haccount.covered_vars ⟨fun _ => Operand.isNamed_of_references, hreads⟩ htracked hmem

theorem keepsAccount_portOut {port source : Operand} (hoperands : insn.operands = [port, source])
    (hport : Counts managed reads writes port.value.symbols)
    (hsource : Counts managed reads writes source.value.symbols) (l : Lowering) :
    l.KeepsAccount managed reads writes writes (context.portOut insn l) := by
  simp only [portOut, hoperands]
  apply keepsAccount_intrinsic (l := l) rfl rfl
  intro segment symbol haccount htracked arg harg hmem
  rcases List.mem_pair.mp harg with rfl | rfl
  · exact haccount.covered_vars ⟨fun _ => Operand.isNamed_of_references, hport⟩ htracked hmem
  · exact haccount.covered_vars ⟨fun _ => Operand.isNamed_of_references, hsource⟩ htracked hmem

/-- Input from a port goes to the variable of the accumulator. The number of the port is
read before room is made for it. -/
theorem keepsAccount_portIn {target port : Operand} (hoperands : insn.operands = [target, port])
    (heffect : insn.effect = target.assign (.port port.value target.size))
    (htarget : target.asReg? = some .eax)
    (hreads : Counts managed reads writes (AnalysisContext.effectReads insn)) (l : Lowering) :
    l.KeepsAccount managed reads writes (writes ++ insn.effectWrites)
      (context.portIn insn l) := by
  have hallowed : port.value.Allowed managed reads writes := by
    refine ⟨fun _ => Operand.isNamed_of_references, hreads.subset ?_⟩
    obtain ⟨entry, hentry, hsubset⟩ := Operand.exists_assign_of_asReg? htarget
      (.port port.value target.size)
    exact List.Subset.trans hsubset (AnalysisContext.value_subset_effectReads (heffect ▸ hentry))
  have hdeclared : l.KeepsAccount managed reads writes writes
      (l.declare ("intrinsic_in" ++ decimalText target.bitSize) (.int target.bitSize) [.ushort]) :=
    .of_eq rfl rfl
  simp only [portIn, hoperands]
  cases target with
  | reg register size =>
      obtain rfl : register = .eax := Option.some.inj htarget
      rw [Instruction.effectWrites_of_assign heffect]
      refine hdeclared.trans ((context.keepsAccount_receive ?_).mono (by simp))
      intro segment symbol haccount htracked hmem
      obtain ⟨arg, harg, hmem⟩ := CExpr.mem_vars_call hmem
      rw [List.mem_singleton.mp harg] at hmem
      exact haccount.covered_vars hallowed htracked hmem
  | special | imm | mem => cases htarget

/-- Instructions that change no symbol. -/
theorem keepsAccount_idle (hidle : insn.kind.isIdle) (hcall : insn.kind ≠ .call)
    (hwrites : insn.effectWrites = [])
    (hreads : Counts managed reads writes ((context.analysis table).controlReads insn))
    (rest : List Instruction) (l : Lowering) :
    l.KeepsAccount managed reads writes writes (context.lower insn rest l) := by
  rw [lower]
  cases hkind : insn.kind with
  | jcc cc =>
      rw [AnalysisContext.controlReads, hkind] at hreads
      exact context.keepsAccount_jcc hreads l
  | call => exact absurd hkind hcall
  | jmp => exact context.keepsAccount_jump table hwrites hkind hreads l
  | passthrough => exact .emit _ fun name hname => absurd hname List.not_mem_nil
  | unmodeled => exact context.keepsAccount_unmodeled hwrites l
  | _ =>
      rw [hkind] at hidle
      exact absurd hidle Bool.false_ne_true

end BlockContext

/-- Instructions whose reads the analysis counts in full: they have a lifted effect or are
left to inline assembly as a whole, they are no calls, and input from a port goes to the
accumulator. -/
structure Instruction.Counted (insn : Instruction) : Prop where
  lifted : insn.Lifted
  noCall : insn.kind ≠ .call
  accepted : (insn.opcode.effect? insn.operands).isSome ∨ insn.kind = .unmodeled
  accumulator : insn.kind = .portIn → insn.operands.head?.bind Operand.asReg? = some .eax

/-- Lowering keeps the account if what the instruction reads is counted. -/
theorem BlockContext.keepsAccount_lower (context : BlockContext) (table : DeclTable)
    {insn : Instruction} (hinsn : insn.Counted) {reads writes : List Symbol}
    (hreads : Counts context.scope.isManaged reads writes ((context.analysis table).readsOf insn))
    (rest : List Instruction) (l : Lowering) :
    l.KeepsAccount context.scope.isManaged reads writes (writes ++ insn.effectWrites)
      (context.lower insn rest l) := by
  have heffectReads : Counts context.scope.isManaged reads writes
      (AnalysisContext.effectReads insn) := fun symbol hsymbol =>
    hreads symbol (List.mem_append_left _ (List.mem_append_left _ hsymbol))
  have hcontrolReads : Counts context.scope.isManaged reads writes
      ((context.analysis table).controlReads insn) := fun symbol hsymbol =>
    hreads symbol (List.mem_append_left _ (List.mem_append_right _ hsymbol))
  cases hinsn.lifted.form with
  | plain hkind =>
      rw [lower, hkind]
      exact context.keepsAccount_plain hinsn.lifted hkind heffectReads l
  | idle hkind heffect =>
      have hwrites := Instruction.effectWrites_of_effect_nil heffect
      rw [hwrites, List.append_nil]
      exact context.keepsAccount_idle table hkind hinsn.noCall hwrites hcontrolReads rest l
  | @loop cc hkind heffect =>
      have hcounter : Counts context.scope.isManaged reads writes [.reg .ecx] :=
        heffectReads.subset (by simpa using hinsn.lifted.counter_mem_effectReads hkind)
      rw [lower, hkind]
      refine (context.keepsAccount_loop hcounter ?_ l).addWrites ?_
      · intro code hcode
        rwa [AnalysisContext.controlReads, hkind, Option.mem_def.mp hcode] at hcontrolReads
      · rw [Instruction.effectWrites, heffect]
        exact hcounter
  | ret hkind heffect =>
      rw [AnalysisContext.controlReads, hkind] at hcontrolReads
      rw [lower, hkind]
      exact context.keepsAccount_ret heffect hcontrolReads l
  | setSpecial hkind hoperands heffect =>
      rw [lower, hkind]
      exact (keepsAccount_setSpecial hoperands (Instruction.counts_value heffectReads heffect)
        l).addWrites (Instruction.counts_of_special heffect)
  | getSpecial hkind hoperands htarget heffect =>
      rw [lower, hkind]
      exact context.keepsAccount_getSpecial hoperands heffect htarget l
  | loadTable hkind hoperands heffect =>
      rw [lower, hkind]
      have hvalue := Instruction.counts_value heffectReads heffect
      rw [Expr.symbols] at hvalue
      exact (context.keepsAccount_loadTable hoperands hvalue _ l).addWrites
        (Instruction.counts_of_special heffect)
  | systemLoad hkind hoperands heffect =>
      rw [lower, hkind]
      exact (context.keepsAccount_systemLoad hoperands
        (Instruction.counts_value heffectReads heffect) _ l).addWrites
        (Instruction.counts_of_special heffect)
  | portOut hkind hoperands heffect =>
      have hentry := heffect ▸ List.mem_singleton_self _
      rw [lower, hkind, Instruction.effectWrites, heffect]
      refine Lowering.KeepsAccount.addWrites (context.keepsAccount_portOut hoperands
        (heffectReads.subset (AnalysisContext.address_subset_effectReads hentry rfl))
        (Instruction.counts_value heffectReads heffect) l) ?_
      exact fun symbol hsymbol => absurd hsymbol List.not_mem_nil
  | portIn hkind hoperands heffect =>
      have htarget := hinsn.accumulator hkind
      rw [hoperands] at htarget
      rw [lower, hkind]
      exact context.keepsAccount_portIn hoperands heffect htarget heffectReads l
  | misfit hkind hnone heffect =>
      rcases hinsn.accepted with haccepted | hunmodeled
      · simp [hnone] at haccepted
      · rw [hunmodeled] at hkind
        exact absurd hkind Bool.false_ne_true

/-! ## Blocks -/

namespace BlockContext

variable (context : BlockContext) (table : DeclTable)

/-- One more instruction, counted by the analysis and lowered. -/
theorem accounts_lower {insn : Instruction} (hinsn : insn.Counted) {deps : BlockDeps}
    {segment : List Stmt} {l : Lowering}
    (h : Accounts context.scope.isManaged deps.reads deps.writes segment l.state)
    (rest : List Instruction) :
    ∃ more, (context.lower insn rest l).emission.body = l.emission.body ++ more ∧
      Accounts context.scope.isManaged ((context.analysis table).addInstruction deps insn).reads
        ((context.analysis table).addInstruction deps insn).writes (segment ++ more)
        (context.lower insn rest l).state := by
  have hreads : deps.reads ⊆ ((context.analysis table).addInstruction deps insn).reads :=
    fun symbol hsymbol => AnalysisContext.mem_reads_addInstruction_iff.mpr (.inl hsymbol)
  have hcounted : Counts context.scope.isManaged
      ((context.analysis table).addInstruction deps insn).reads deps.writes
      ((context.analysis table).readsOf insn) := by
    intro symbol hsymbol htracked
    by_cases hwritten : symbol ∈ deps.writes
    · exact .inr hwritten
    · exact .inl (AnalysisContext.mem_reads_addInstruction_iff.mpr
        (.inr ⟨AnalysisContext.tracks_iff.mpr htracked, hwritten, hsymbol⟩))
  have hwrites : ((context.analysis table).addInstruction deps insn).writes ⊆
      deps.writes ++ insn.effectWrites := by
    intro symbol hsymbol
    rcases AnalysisContext.mem_writes_addInstruction_iff.mp hsymbol with hsymbol | ⟨_, hsymbol⟩
    · exact List.mem_append_left _ hsymbol
    · rw [AnalysisContext.writesOf, if_neg hinsn.noCall, List.append_nil] at hsymbol
      exact List.mem_append_right _ hsymbol
  exact ((context.keepsAccount_lower table hinsn hcounted rest l).mono hwrites) segment
    (h.mono hreads (List.Subset.refl _))

/-- All instructions of a block, counted by the analysis and lowered. -/
theorem accounts_lowerAll {insns : List Instruction} (hinsns : ∀ insn ∈ insns, insn.Counted)
    {deps : BlockDeps} {segment : List Stmt} {l : Lowering}
    (h : Accounts context.scope.isManaged deps.reads deps.writes segment l.state) :
    ∃ more, (context.lowerAll insns l).emission.body = l.emission.body ++ more ∧
      Accounts context.scope.isManaged
        (insns.foldl (context.analysis table).addInstruction deps).reads
        (insns.foldl (context.analysis table).addInstruction deps).writes (segment ++ more)
        (context.lowerAll insns l).state := by
  induction insns generalizing deps segment l with
  | nil => exact ⟨[], (List.append_nil _).symm, by rwa [List.append_nil]⟩
  | cons insn rest ih =>
      obtain ⟨hinsn, hrest⟩ := List.forall_mem_cons.mp hinsns
      obtain ⟨first, hfirst, haccount⟩ := context.accounts_lower table hinsn h rest
      obtain ⟨second, hsecond, haccount⟩ := ih hrest haccount
      refine ⟨first ++ second, ?_, ?_⟩
      · rw [lowerAll, hsecond, hfirst, List.append_assoc]
      · rwa [← List.append_assoc]

end BlockContext

namespace EmissionContext

/-- How a block continues reads no variable. -/
theorem finishBlock_reads (context : EmissionContext) (block : Block) (next : Option Address)
    (l : Lowering) :
    ∃ stmts, (context.finishBlock block next l).body = l.emission.body ++ stmts ∧
      ∀ stmt ∈ stmts, stmt.reads = [] := by
  unfold finishBlock
  split
  · refine ⟨[], ?_, by simp⟩
    split <;> exact (List.append_nil _).symm
  · split
    · exact ⟨[], (List.append_nil _).symm, by simp⟩
    · exact ⟨[_], rfl, by simp [Stmt.reads]⟩
  · exact ⟨[], (List.append_nil _).symm, by simp⟩

end EmissionContext

/-- The reads that are collected for a block are those of its instructions. -/
theorem AnalysisContext.reads_of_collect {context : AnalysisContext} {blocks : List Address}
    {deps : Dependencies} (hcollect : context.collect blocks = .ok deps) {address : Address}
    (haddress : address ∈ blocks) {block : Block}
    (hblock : context.scope.block? address = some block) :
    deps.reads address = (block.instructions.foldl context.addInstruction {}).reads := by
  obtain ⟨found, hfound⟩ :=
    Dependencies.exists_block?_of_mem ((mem_addresses_of_collect hcollect).mpr haddress)
  obtain ⟨shown, hshown, rfl⟩ := block?_of_collect hcollect hfound
  obtain rfl : shown = block := Option.some.inj (hshown.symm.trans hblock)
  rw [Dependencies.reads, hfound]
  rfl

/-- At the start of a block nothing has been read, and the values at hand are addresses in
the frame. -/
theorem FrameScope.accounts_blockFrame (scope : FrameScope) (block : Address) :
    Accounts scope.isManaged [] [] [] { live := scope.blockFrame block } where
  framed := scope.framed_blockFrame block
  value {target value symbol} hvalue href htracked := by
    obtain ⟨_, offset, hoffset⟩ := blockFrame_spec hvalue
    rw [Expr.references_of_frameOffset hoffset href] at htracked
    exact absurd htracked.1 Bool.false_ne_true
  written _ hwritten := absurd hwritten List.not_mem_nil
  first _ hfirst := absurd hfirst Bool.false_ne_true

/-- A register or flag that the statements of a block without calls read before they assign
it counts as read by the block, whatever is required of the block. -/
theorem mem_reads_of_readsFirst (context : AnalysisContext) {blocks : List Address}
    {deps : Dependencies} (hcollect : context.collect blocks = .ok deps) {address : Address}
    (haddress : address ∈ blocks) {block : Block}
    (hblock : context.scope.block? address = some block)
    (hinsns : ∀ insn ∈ block.instructions, insn.Counted) (required : Dependencies)
    (next : Option Address) (emission : Emission) :
    ∃ segment, (EmissionContext.emitBlock ⟨context.scope, context.config⟩ required block next
        emission).body = emission.body ++ segment ∧
      ∀ symbol, context.tracks symbol → Stmt.readsFirst symbol.text segment →
        symbol ∈ deps.reads address := by
  let outer : EmissionContext := ⟨context.scope, context.config⟩
  let inner := outer.blockContext required block
  let lowering := inner.lowerAll block.instructions (outer.blockStart block emission)
  have hstart : Accounts inner.scope.isManaged ({} : BlockDeps).reads ({} : BlockDeps).writes []
      (outer.blockStart block emission).state := context.scope.accounts_blockFrame block.address
  obtain ⟨lowered, hlowered, haccount⟩ :=
    inner.accounts_lowerAll context.declarations hinsns hstart
  obtain ⟨last, hlast, hreads⟩ := outer.finishBlock_reads block next
    (inner.commit inner.required BlockContext.never lowering)
  have hend := (haccount.commit inner.required BlockContext.never).append_silent hreads
  refine ⟨lowered ++ (lowering.state.commit inner.required BlockContext.never).stmts ++ last,
    ?_, fun symbol htracks hfirst => ?_⟩
  · refine hlast.trans ?_
    rw [BlockContext.body_commit, hlowered]
    simp only [List.append_assoc]
    rfl
  · rw [AnalysisContext.reads_of_collect hcollect haddress hblock]
    exact hend.first (AnalysisContext.tracks_iff.mp htracks) hfirst

namespace CopyAndStore

/-- A copy of a register is stored after the register has been overwritten. -/
def block : Block :=
  { address := 16
    instructions :=
      [.ofMnemonic 16 "mov" [.ofReg .eax, .ofReg .ecx],
        .ofMnemonic 18 "mov" [.ofReg .ecx, .imm 1],
        .ofMnemonic 23 "mov" [.atOffset .ebx 0, .ofReg .eax]] }

def context : AnalysisContext :=
  { scope :=
      { disassembly := (Program.insertBlock {} block).disassembler
        entry := 16
        frameRegister := .ebp }
    declarations := {}
    config := {} }

def deps : Dependencies :=
  (context.collect [16]).toOption.getD { entry := 16, blocks := [] }

/-- The statement that stores the copy reads the variable of the register, and the block
counts as reading it. -/
theorem mem_reads_of_readsFirst_copy :
    context.collect [16] = .ok deps ∧ (∀ insn ∈ block.instructions, insn.Counted) ∧
      Stmt.readsFirst "ecx" (EmissionContext.emitBlock ⟨context.scope, context.config⟩
        { entry := 16, blocks := [] } block none { declarations := {} }).body ∧
      .reg .ecx ∈ deps.reads 16 := by
  have hcollect : context.collect [16] = .ok deps :=
    AnalysisContext.collect_eq_ok (by decide +kernel) _
  have hlifted : ∀ insn ∈ block.instructions, insn.Lifted := by
    simp only [block, List.forall_mem_cons]
    exact ⟨rfl, rfl, rfl, List.forall_mem_nil _⟩
  have hplain : ∀ insn ∈ block.instructions, insn.kind = .plain ∧
      (insn.opcode.effect? insn.operands).isSome := by
    decide +kernel
  have hinsns : ∀ insn ∈ block.instructions, insn.Counted := by
    intro insn hinsn
    obtain ⟨hkind, heffect⟩ := hplain insn hinsn
    exact ⟨hlifted insn hinsn, by simp [hkind], .inl heffect, by simp [hkind]⟩
  have hfirst : Stmt.readsFirst "ecx" (EmissionContext.emitBlock ⟨context.scope, context.config⟩
      { entry := 16, blocks := [] } block none { declarations := {} }).body := by
    decide +kernel
  obtain ⟨segment, hsegment, hreads⟩ := mem_reads_of_readsFirst context hcollect
    List.mem_cons_self (show context.scope.block? 16 = some block from rfl) hinsns
    { entry := 16, blocks := [] } none { declarations := {} }
  rw [List.nil_append] at hsegment
  exact ⟨hcollect, hinsns, hfirst, hreads (.reg .ecx) (by decide) (hsegment ▸ hfirst)⟩

end CopyAndStore

end Uncompile
