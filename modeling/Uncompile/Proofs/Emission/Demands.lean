import Uncompile.Proofs.Emission.Accounts
import Uncompile.Proofs.Emission.CallFrame
import Uncompile.Proofs.Machine.Forms

/-!
# What instructions demand of a block state

Lowering an instruction has three parts. First some of the pending symbols are written
out: `BlockContext.demands` lists, for each kind of instruction, which ones are asked for.
Then the statements of the instruction itself follow; of variables they assign those of
registers only. Last the block state takes over what a plain instruction computes, or
forgets what is overwritten from outside.
-/

namespace Uncompile

/-- A commit that is asked for: by the names of symbols and by their values. -/
structure Demand where
  required : List Symbol
  force : Symbol → Expr → Bool

namespace Demand

/-- All that is pending. -/
def everything : Demand := ⟨[], fun _ _ => true⟩

/-- What reads one of the given symbols and is none of them. -/
def readers (symbols : List Symbol) : Demand :=
  ⟨[], fun symbol value =>
    symbol ∉ symbols && symbols.any fun clobbered => value.references clobbered⟩

end Demand

namespace BlockContext

/-- What is asked for where a block ends. -/
def atEnd (context : BlockContext) : Demand := ⟨context.required, never⟩

/-- What is asked for before an instruction, in order. -/
def demands (context : BlockContext) (insn : Instruction) : List Demand :=
  match insn.kind with
  | .jcc _ | .ret => [context.atEnd]
  | .loop _ => [⟨context.required, fun symbol _ => symbol = .reg .ecx⟩]
  | .call =>
    [⟨context.required.filter fun symbol => symbol ∉ context.scratch, ifReadsMemory⟩,
      if (context.scope.target? insn).isSome then .readers context.scratch else .everything]
  | .jmp =>
    match insn.operands with
    | .imm _ :: _ => []
    | .special _ :: _ | [] => [.everything]
    | _ => [context.atEnd]
  | .movFromSpecial _ =>
    match insn.operands.head?.bind Operand.asReg? with
    | some target => [.readers [.reg target]]
    | none => [.everything]
  | .plain => if insn.writesMemory then [⟨context.required, ifReadsMemory⟩] else []
  | .descriptorTable _ =>
    match insn.operands with
    | .mem _ :: _ => []
    | _ => [.everything]
  | .systemLoad _ => if insn.operands.isEmpty then [.everything] else []
  | .portOut =>
    match insn.operands with
    | [_, _] => []
    | _ => [.everything]
  | .portIn =>
    match insn.operands with
    | [_, _] => [.readers [.reg .eax]]
    | _ => [.everything]
  | .movToSpecial _ | .passthrough => []
  | .unmodeled => [.everything]

/-- The symbols whose variables an instruction overwrites from outside. -/
def clobbers (context : BlockContext) (insn : Instruction) : List Symbol :=
  match insn.kind with
  | .call => if (context.scope.target? insn).isSome then context.scratch else []
  | .movFromSpecial _ => ((insn.operands.head?.bind Operand.asReg?).map Symbol.reg).toList
  | .portIn =>
    match insn.operands with
    | [_, _] => [.reg .eax]
    | _ => []
  | _ => []

/-- Writes out what is asked for. -/
def meet (context : BlockContext) (demands : List Demand) (l : Lowering) : Lowering :=
  demands.foldl (fun l demand => context.commit demand.required demand.force l) l

/-- The block state in which an instruction computes its values, without what it
overwrites from outside. -/
def cleared (context : BlockContext) (insn : Instruction) (l : Lowering) : BlockState :=
  (context.clobbers insn).foldl BlockState.discard (context.meet (context.demands insn) l).state

variable (context : BlockContext) {insn : Instruction} {symbol : Symbol}

/-- What an instruction asks for by name is asked for at the end of the block. -/
theorem required_of_mem_demands {demand : Demand} (hdemand : demand ∈ context.demands insn)
    (hsymbol : symbol ∈ demand.required) : symbol ∈ context.required := by
  unfold demands at hdemand
  grind [Demand.everything, Demand.readers, atEnd]

theorem reg_of_mem_clobbers (hsymbol : symbol ∈ context.clobbers insn) : ∃ r, symbol = .reg r := by
  unfold clobbers at hsymbol
  split at hsymbol
  · grind [EmissionContext.scratch]
  · obtain ⟨r, -, hr⟩ := Option.map_eq_some_iff.mp (Option.mem_toList.mp hsymbol)
    exact ⟨r, hr.symm⟩
  · grind
  · exact absurd hsymbol List.not_mem_nil

end BlockContext

/-! ## The statements of an instruction -/

/-- One lowering continues another by statements that assign no variables but those of
registers. -/
def Lowering.Adds (l l' : Lowering) : Prop :=
  ∃ own, l'.emission.body = l.emission.body ++ own ∧
    ∀ stmt ∈ own, ∀ name, stmt.assigned? = some name → ∃ r : Reg, name = (Symbol.reg r).text

namespace Lowering.Adds

variable {l l' : Lowering}

theorem of_eq (hbody : l'.emission.body = l.emission.body) : l.Adds l' :=
  ⟨[], by rw [hbody, List.append_nil], fun _ hstmt => absurd hstmt List.not_mem_nil⟩

/-- A statement that assigns no variable. -/
theorem single {stmt : Stmt} (hbody : l'.emission.body = l.emission.body ++ [stmt])
    (hstmt : stmt.assigned? = none) : l.Adds l' := by
  refine ⟨[stmt], hbody, ?_⟩
  intro other hother name hname
  rw [List.mem_singleton.mp hother, hstmt] at hname
  cases hname

/-- A result that goes to a register. -/
theorem receive {r : Reg} {e : CExpr}
    (hbody : l'.emission.body = l.emission.body ++ [.assign (.ofSymbol (.reg r)) e]) :
    l.Adds l' := by
  refine ⟨[_], hbody, ?_⟩
  intro other hother name hname
  rw [List.mem_singleton.mp hother] at hname
  exact ⟨r, (Option.some.inj hname).symm⟩

end Lowering.Adds

namespace BlockContext

variable (context : BlockContext) {insn : Instruction}

theorem adds_branch (cond : CExpr) (l : Lowering) : l.Adds (context.branch insn cond l) := by
  rw [branch]
  split
  · exact .single rfl rfl
  · exact .single rfl rfl

/-- Declarations do not matter to what is written out. -/
theorem body_commit_congr {l declared : Lowering} (hstate : declared.state = l.state)
    (hbody : declared.emission.body = l.emission.body) (demand : Demand) :
    (context.commit demand.required demand.force declared).emission.body =
      (context.commit demand.required demand.force l).emission.body := by
  rw [body_commit, body_commit, hstate, hbody]

theorem adds_unmodeled {l declared : Lowering} (hstate : declared.state = l.state)
    (hbody : declared.emission.body = l.emission.body) :
    (context.meet [.everything] l).Adds (context.unmodeled insn declared) := by
  have hmet : (context.unmodeled insn declared).emission.body =
      (context.meet [.everything] l).emission.body ++ [.asm insn.text] :=
    congrArg (· ++ _) (context.body_commit_congr hstate hbody .everything)
  exact .single hmet rfl

theorem adds_receive {l declared : Lowering} (hstate : declared.state = l.state)
    (hbody : declared.emission.body = l.emission.body) (r : Reg) (e : CExpr) :
    (context.meet [.readers [.reg r]] l).Adds
      ((context.clobber [.reg r] declared).emit (.assign (.ofSymbol (.reg r)) e)) := by
  have hmet := context.body_commit_congr hstate hbody (.readers [.reg r])
  exact .receive (r := r) (e := e) (congrArg (· ++ _) hmet)

theorem meet_plain (hkind : insn.kind = .plain) (l : Lowering) :
    context.meet (context.demands insn) l = context.ready insn l := by
  rw [demands, hkind, ready]
  dsimp only
  split <;> rfl

/-- Stores are no assignments to variables. -/
theorem adds_plain (hkind : insn.kind = .plain) (l : Lowering) :
    (context.meet (context.demands insn) l).Adds (context.plain insn l) := by
  rw [context.meet_plain hkind]
  refine ⟨_, context.body_plain insn l, ?_⟩
  intro stmt hstmt name hname
  obtain ⟨⟨location, value⟩, hwrite, rfl⟩ := List.mem_map.mp hstmt
  obtain ⟨-, hstore⟩ := List.mem_filter.mp hwrite
  cases location with
  | sym symbol => simp [Location.asSymbol?] at hstore
  | mem ptr size =>
      simp only [Location.toExpr, Lowering.eval, BlockState.eval, Expr.bind, Expr.reduce,
        CExpr.ofExpr] at hname
      split at hname <;> cases hname
  | port p size => cases hname

theorem adds_finishCall (insn : Instruction) (rest : List Instruction) (ret : CType)
    (call : CExpr) (l : Lowering) :
    (context.commit [] context.savedFromCall l).Adds
      (context.finishCall insn rest ret call l) := by
  obtain ⟨stmt, hstmt, hbody, -⟩ := context.finishCall_emits insn rest ret call l
  rw [← body_commit context] at hbody
  rcases hstmt with rfl | rfl
  · exact .single hbody rfl
  · exact .receive hbody

theorem adds_call (hkind : insn.kind = .call) (rest : List Instruction) (l : Lowering) :
    (context.meet (context.demands insn) l).Adds (context.call insn rest l) := by
  rw [demands, hkind]
  cases htarget : context.scope.target? insn with
  | none =>
      simp only [call, htarget]
      exact context.adds_unmodeled (l := context.callReady l) rfl rfl
  | some target =>
      cases target with
      | indirect value =>
          simp only [call, htarget]
          exact context.adds_finishCall insn rest _ _ (context.callReady l)
      | address target =>
          obtain ⟨name, args, declared, hcall, hstate, hbody, -⟩ :=
            context.call_direct htarget rest l
          have hmet := context.body_commit_congr hstate hbody (.readers context.scratch)
          obtain ⟨own, hown, hassigned⟩ := context.adds_finishCall insn rest
            (context.resultType insn l) (.call name args) declared
          rw [hcall]
          exact ⟨own, hown.trans (congrArg (· ++ own) hmet), hassigned⟩

theorem adds_jump (hkind : insn.kind = .jmp) (l : Lowering) :
    (context.meet (context.demands insn) l).Adds (context.jump insn l) := by
  rw [demands, hkind, jump]
  rcases insn.operands with _ | ⟨operand, more⟩
  · exact context.adds_unmodeled rfl rfl
  · cases operand with
    | imm => exact .of_eq rfl
    | special => exact context.adds_unmodeled rfl rfl
    | reg | mem => exact .single rfl rfl

/-- What stands in the place of an instruction that becomes the call of an intrinsic, with
what is asked for before it and what it overwrites. -/
inductive Stands (context : BlockContext) (insn : Instruction) (l : Lowering) :
    List Demand → List Symbol → Lowering → Prop
  /-- The operands do not fit. -/
  | text {declared : Lowering} (hstate : declared.state = l.state)
      (hbody : declared.emission.body = l.emission.body) :
      Stands context insn l [.everything] [] (context.unmodeled insn declared)
  | call {declared : Lowering} {e : CExpr} (hstate : declared.state = l.state)
      (hbody : declared.emission.body = l.emission.body) :
      Stands context insn l [] [] (declared.emit (.expr e))
  /-- The result of the call goes to a register. -/
  | result {declared : Lowering} {r : Reg} {e : CExpr} (hstate : declared.state = l.state)
      (hbody : declared.emission.body = l.emission.body) :
      Stands context insn l [.readers [.reg r]] [.reg r]
        ((context.clobber [.reg r] declared).emit (.assign (.ofSymbol (.reg r)) e))

theorem stands_getSpecial {r : SpecialReg} (hkind : insn.kind = .movFromSpecial r)
    (rest : List Instruction) (l : Lowering) :
    context.Stands insn l (context.demands insn) (context.clobbers insn)
      (context.lower insn rest l) := by
  simp only [demands, clobbers, lower, hkind, getSpecial]
  cases insn.operands.head?.bind Operand.asReg? with
  | some target => exact .result rfl rfl
  | none => exact .text rfl rfl

theorem stands_intrinsic (hkind : insn.kind.isIntrinsic) (rest : List Instruction) (l : Lowering) :
    context.Stands insn l (context.demands insn) (context.clobbers insn)
      (context.lower insn rest l) := by
  rw [demands, clobbers, lower]
  cases hcase : insn.kind with
  | descriptorTable table =>
      simp only [loadTable]
      rcases insn.operands with _ | ⟨operand, more⟩
      · exact .text rfl rfl
      · cases operand with
        | mem => exact .call rfl rfl
        | reg | special | imm => exact .text rfl rfl
  | systemLoad load =>
      simp only [systemLoad]
      rcases insn.operands with _ | ⟨operand, more⟩
      · exact .text rfl rfl
      · exact .call rfl rfl
  | portOut =>
      simp only [portOut]
      rcases insn.operands with _ | ⟨port, _ | ⟨source, _ | ⟨third, more⟩⟩⟩
      · exact .text rfl rfl
      · exact .text rfl rfl
      · exact .call rfl rfl
      · exact .text rfl rfl
  | portIn =>
      simp only [portIn]
      rcases insn.operands with _ | ⟨target, _ | ⟨port, _ | ⟨third, more⟩⟩⟩
      · exact .text rfl rfl
      · exact .text rfl rfl
      · exact .result rfl rfl
      · exact .text rfl rfl
  | _ =>
      rw [hcase] at hkind
      exact absurd hkind Bool.false_ne_true

theorem Stands.adds {context : BlockContext} {l lowered : Lowering} {demands : List Demand}
    {clobbers : List Symbol} (h : context.Stands insn l demands clobbers lowered) :
    (context.meet demands l).Adds lowered := by
  cases h with
  | text hstate hbody => exact context.adds_unmodeled hstate hbody
  | call _ hbody => exact .single (congrArg (· ++ _) hbody) rfl
  | result hstate hbody => exact context.adds_receive hstate hbody _ _

/-- After what it demands an instruction adds statements of its own. -/
theorem adds_lower (insn : Instruction) (rest : List Instruction) (l : Lowering) :
    (context.meet (context.demands insn) l).Adds (context.lower insn rest l) := by
  cases hkind : insn.kind with
  | call =>
      rw [lower, hkind]
      exact context.adds_call hkind rest l
  | jmp =>
      rw [lower, hkind]
      exact context.adds_jump hkind l
  | plain =>
      rw [lower, hkind]
      exact context.adds_plain hkind l
  | jcc | loop =>
      rw [demands, lower, hkind]
      exact context.adds_branch _ _
  | ret | movToSpecial | passthrough =>
      rw [demands, lower, hkind]
      exact .single rfl rfl
  | movFromSpecial => exact (context.stands_getSpecial hkind rest l).adds
  | descriptorTable | systemLoad | portOut | portIn =>
      exact (context.stands_intrinsic (hkind ▸ rfl) rest l).adds
  | unmodeled =>
      rw [demands, lower, hkind]
      exact context.adds_unmodeled rfl rfl

/-! ## The state after an instruction -/

theorem state_meet_single (demand : Demand) (l : Lowering) :
    (context.meet [demand] l).state = (l.state.commit demand.required demand.force).state :=
  context.state_commit _ _ l

theorem state_branch (cond : CExpr) (l : Lowering) :
    (context.branch insn cond l).state = l.state := by
  rw [branch]
  split <;> rfl

/-- Inline assembly that writes no symbol has everything written out. -/
theorem state_unmodeled_of_effectWrites (hwrites : insn.effectWrites = []) {l declared : Lowering}
    (hstate : declared.state = l.state) :
    (context.unmodeled insn declared).state = (context.meet [.everything] l).state := by
  rw [context.unmodeled_of_effectWrites hwrites, state_meet_single, ← hstate]
  exact context.state_commit _ _ declared

theorem state_clobber (symbols : List Symbol) {l declared : Lowering}
    (hstate : declared.state = l.state) :
    (context.clobber symbols declared).state =
      symbols.foldl BlockState.discard (context.meet [.readers symbols] l).state := by
  rw [state_meet_single, ← hstate, ← state_commit context]
  rfl

theorem Stands.state {context : BlockContext} {l lowered : Lowering} {demands : List Demand}
    {clobbers : List Symbol} (h : context.Stands insn l demands clobbers lowered)
    (hwrites : insn.effectWrites = []) :
    lowered.state = clobbers.foldl BlockState.discard (context.meet demands l).state := by
  cases h with
  | text hstate _ => exact context.state_unmodeled_of_effectWrites hwrites hstate
  | call hstate _ => exact hstate
  | result hstate _ => exact context.state_clobber _ hstate

theorem state_lower_call (heffect : insn.effect = []) (hkind : insn.kind = .call)
    (rest : List Instruction) (l : Lowering) :
    (context.call insn rest l).state = context.cleared insn l := by
  rw [cleared, demands, clobbers, hkind, context.state_call heffect]
  cases (context.scope.target? insn).isSome with
  | false => exact (context.state_commit _ _ (context.callReady l)).symm
  | true =>
      exact congrArg (context.scratch.foldl BlockState.discard)
        (context.state_commit _ _ (context.callReady l)).symm

/-- Instructions that change no symbol. -/
theorem state_lower_idle (hkind : insn.kind.isIdle) (heffect : insn.effect = [])
    (rest : List Instruction) (l : Lowering) :
    (context.lower insn rest l).state = context.cleared insn l := by
  have hwrites := Instruction.effectWrites_of_effect_nil heffect
  rw [lower]
  cases hcase : insn.kind with
  | jcc cc =>
      rw [cleared, demands, clobbers, hcase]
      exact context.state_branch _ _
  | call => exact context.state_lower_call heffect hcase rest l
  | jmp =>
      rw [cleared, demands, clobbers, hcase, jump]
      rcases insn.operands with _ | ⟨operand, more⟩
      · exact context.state_unmodeled_of_effectWrites hwrites rfl
      · cases operand with
        | special => exact context.state_unmodeled_of_effectWrites hwrites rfl
        | imm | reg | mem => rfl
  | passthrough =>
      rw [cleared, demands, clobbers, hcase]
      rfl
  | unmodeled =>
      rw [cleared, demands, clobbers, hcase]
      exact context.state_unmodeled_of_effectWrites hwrites rfl
  | _ =>
      rw [hcase] at hkind
      exact absurd hkind Bool.false_ne_true

/-- All but plain instructions leave the state in which they compute their values. -/
theorem state_lower (hlifted : insn.Lifted) (hkind : insn.kind ≠ .plain)
    (rest : List Instruction) (l : Lowering) :
    (context.lower insn rest l).state = context.cleared insn l := by
  cases hlifted.form with
  | plain hplain => exact absurd hplain hkind
  | idle hidle heffect => exact context.state_lower_idle hidle heffect rest l
  | loop hcase heffect =>
      rw [cleared, demands, clobbers, lower, hcase]
      exact context.state_branch _ _
  | ret hcase heffect | setSpecial hcase hoperands heffect =>
      rw [cleared, demands, clobbers, lower, hcase]
      rfl
  | @getSpecial r target hcase hoperands htarget heffect =>
      simp only [cleared, demands, clobbers, lower, hcase, getSpecial, hoperands,
        List.head?_cons, Option.bind_some]
      cases target with
      | reg register size => exact context.state_clobber [.reg register] rfl
      | special other => exact absurd rfl (htarget other)
      | imm | mem =>
          have hwrites : insn.effectWrites = [] := by
            rw [Instruction.effectWrites, heffect]
            rfl
          exact context.state_unmodeled_of_effectWrites hwrites rfl
  | loadTable hcase hoperands heffect =>
      simp only [cleared, demands, clobbers, lower, hcase, loadTable, hoperands]
      rfl
  | systemLoad hcase hoperands heffect =>
      simp only [cleared, demands, clobbers, lower, hcase, systemLoad, hoperands]
      rfl
  | portOut hcase hoperands heffect =>
      simp only [cleared, demands, clobbers, lower, hcase, portOut, hoperands]
      rfl
  | portIn hcase hoperands heffect =>
      simp only [cleared, demands, clobbers, lower, hcase, portIn, hoperands]
      exact context.state_clobber [.reg .eax] rfl
  | misfit hintrinsic hnone heffect =>
      exact (context.stands_intrinsic hintrinsic rest l).state
        (Instruction.effectWrites_of_effect_nil heffect)

/-! ## What making room does to the state -/

theorem framed_meet {l : Lowering} (hframed : l.state.Framed context.scope.isManaged)
    (demands : List Demand) : (context.meet demands l).state.Framed context.scope.isManaged := by
  induction demands generalizing l with
  | nil => exact hframed
  | cons demand more ih =>
      apply ih (l := context.commit demand.required demand.force l)
      rw [state_commit]
      exact hframed.commit _ _

theorem evolves_cleared (insn : Instruction) (l : Lowering) :
    BlockState.Evolves context.scope.isManaged insn.effect l.state (context.cleared insn l) := by
  have hmeet : ∀ (demands : List Demand) (l' : Lowering), context.Evolves insn l.state l' →
      context.Evolves insn l.state (context.meet demands l') := by
    intro demands
    induction demands with
    | nil => exact fun _ h => h
    | cons demand more ih => exact fun l' h => ih _ (context.evolves_commit h _ _)
  exact (hmeet _ l .refl).discardAll _

/-- A value is kept or forgotten. -/
theorem get?_live_cleared (insn : Instruction) (l : Lowering) (symbol : Symbol) :
    (context.cleared insn l).live.get? symbol = none ∨
      (context.cleared insn l).live.get? symbol = l.state.live.get? symbol := by
  have hmeet : ∀ (demands : List Demand) (l : Lowering),
      (context.meet demands l).state.live.get? symbol = none ∨
        (context.meet demands l).state.live.get? symbol = l.state.live.get? symbol := by
    intro demands
    induction demands with
    | nil => exact fun _ => .inr rfl
    | cons demand more ih =>
        intro l
        have hcommit := @BlockState.get?_live_commit l.state demand.required demand.force symbol
        rw [← state_commit context] at hcommit
        rcases ih (context.commit demand.required demand.force l) with hnone | hsame
        · exact .inl hnone
        · split at hcommit
          · exact .inl (hsame.trans hcommit)
          · exact .inr (hsame.trans hcommit)
  rw [cleared, BlockState.get?_live_discardAll]
  split
  · exact .inl rfl
  · exact hmeet _ l

/-- A managed register is forgotten only if it is overwritten from outside. -/
theorem get?_live_cleared_of_managed {l : Lowering}
    (hframed : l.state.Framed context.scope.isManaged) {symbol : Symbol}
    (hmanaged : context.scope.isManaged symbol) (hclobbers : symbol ∉ context.clobbers insn) :
    (context.cleared insn l).live.get? symbol = l.state.live.get? symbol := by
  have hmeet : ∀ (demands : List Demand) {l : Lowering},
      l.state.Framed context.scope.isManaged →
        (context.meet demands l).state.live.get? symbol = l.state.live.get? symbol := by
    intro demands
    induction demands with
    | nil => exact fun _ => rfl
    | cons demand more ih =>
        intro l hframed
        refine (ih (context.framed_meet hframed [demand])).trans ?_
        rw [state_meet_single]
        exact hframed.get?_live_commit hmanaged _ _
  rw [cleared, BlockState.get?_live_discardAll, if_neg hclobbers, hmeet _ hframed]

/-! ## Plain instructions -/

theorem cleared_plain (hkind : insn.kind = .plain) (l : Lowering) :
    context.cleared insn l = (context.ready insn l).state := by
  rw [cleared, clobbers, hkind, context.meet_plain hkind]
  rfl

/-- A plain instruction takes over what it computes. -/
theorem get?_live_lower_plain (hkind : insn.kind = .plain) (rest : List Instruction)
    (l : Lowering) (symbol : Symbol) :
    (context.lower insn rest l).state.live.get? symbol =
      ((insn.effect.toBinding.get? symbol).map (context.cleared insn l).eval).or
        ((context.cleared insn l).live.get? symbol) := by
  rw [context.cleared_plain hkind, lower, hkind]
  exact BlockState.get?_live_takeAll context.scope.isManaged _ insn.effect _ symbol

/-- What a plain instruction writes is pending, unless the frame manages it. -/
theorem mem_pending_lower_plain (hkind : insn.kind = .plain) (rest : List Instruction)
    (l : Lowering) (symbol : Symbol) :
    symbol ∈ (context.lower insn rest l).state.pending ↔
      symbol ∈ (context.cleared insn l).pending ∨
        symbol ∈ insn.effectWrites ∧ context.scope.isManaged symbol = false := by
  have htake : ∀ (effect : Effect) (evaluate : Expr → Expr) (state : BlockState),
      symbol ∈ ((effect.filterMap fun write => write.1.asSymbol?.map fun symbol =>
        (symbol, evaluate write.2)).foldl (fun state entry =>
          state.update entry.1 entry.2 (context.scope.isManaged entry.1)) state).pending ↔
        symbol ∈ state.pending ∨ symbol ∈ effect.filterMap (fun write => write.1.asSymbol?) ∧
          context.scope.isManaged symbol = false := by
    intro effect evaluate state
    induction effect generalizing state with
    | nil => simp
    | cons write rest ih =>
        obtain ⟨location, value⟩ := write
        cases location with
        | sym target =>
            refine (ih _).trans ?_
            simp only [BlockState.mem_pending_update, List.filterMap_cons, Location.asSymbol?,
              List.mem_cons]
            grind
        | mem | port => exact ih state
  rw [context.cleared_plain hkind, lower, hkind]
  exact htake insn.effect _ _

end BlockContext

end Uncompile
