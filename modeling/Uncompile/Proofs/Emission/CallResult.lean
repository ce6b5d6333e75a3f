import Uncompile.C.Text
import Uncompile.Proofs.Emission.CallOperands

/-!
# Results of calls

A call is emitted as an assignment if its result is needed. What is needed at the end of
the block is known; for the rest of the block there are two accounts of what an
instruction reads, that of the dependency analysis and that of the emission. The second
one leaves out arguments in registers and the conditions on the counter, and it stops at
the next call whether or not the call destroys the return register.
-/

namespace Uncompile

/-! ## Reads before writes -/

/-- One of the instructions reads, and none of those before it puts an end to that. -/
def ReadBefore (reads stops : Instruction → Prop) (insns : List Instruction) : Prop :=
  ∃ first reader rest, insns = first ++ reader :: rest ∧ reads reader ∧
    ∀ insn ∈ first, ¬stops insn

namespace ReadBefore

variable {reads stops : Instruction → Prop} {insn : Instruction} {insns : List Instruction}

theorem not_nil : ¬ReadBefore reads stops [] := by
  rintro ⟨first, reader, rest, hsplit, -⟩
  exact absurd hsplit (by simp)

theorem cons_iff :
    ReadBefore reads stops (insn :: insns) ↔
      reads insn ∨ (¬stops insn ∧ ReadBefore reads stops insns) := by
  constructor
  · rintro ⟨first, reader, rest, hsplit, hreads, hfirst⟩
    cases first with
    | nil =>
        obtain ⟨rfl, -⟩ := List.cons.inj hsplit
        exact Or.inl hreads
    | cons head first =>
        obtain ⟨rfl, rfl⟩ := List.cons.inj hsplit
        obtain ⟨hhead, hfirst⟩ := List.forall_mem_cons.mp hfirst
        exact Or.inr ⟨hhead, first, reader, rest, rfl, hreads, hfirst⟩
  · rintro (hreads | ⟨hstops, first, reader, rest, rfl, hreads, hfirst⟩)
    · exact ⟨[], insn, insns, rfl, hreads, by simp⟩
    · exact ⟨insn :: first, reader, rest, rfl, hreads, List.forall_mem_cons.mpr ⟨hstops, hfirst⟩⟩

end ReadBefore

/-! ## What the dependency analysis reads -/

/-- The symbols that an effect writes. -/
def Instruction.effectWrites (insn : Instruction) : List Symbol :=
  insn.effect.filterMap fun write => write.1.asSymbol?

namespace AnalysisContext

variable {context : AnalysisContext} {deps : BlockDeps} {insn : Instruction} {symbol : Symbol}

/-- The arguments that a call reads. -/
def callReads (context : AnalysisContext) (insn : Instruction) : List Symbol :=
  if insn.kind = .call then
    (context.argumentRegisters insn).filter fun symbol => symbol ∉ insn.effectWrites
  else []

/-- All that an instruction reads. -/
def readsOf (context : AnalysisContext) (insn : Instruction) : List Symbol :=
  effectReads insn ++ context.controlReads insn ++ context.callReads insn

/-- All that an instruction overwrites. -/
def writesOf (context : AnalysisContext) (insn : Instruction) : List Symbol :=
  insn.effectWrites ++
    if insn.kind = .call then context.config.scratchRegisters.map Symbol.reg else []

theorem mem_reads_addReads {symbols : List Symbol} :
    symbol ∈ (context.addReads deps symbols).reads ↔
      symbol ∈ deps.reads ∨ (symbol ∈ symbols ∧ context.tracks symbol ∧ symbol ∉ deps.writes) := by
  simp [addReads, OrderedSet.mem_addAll]

theorem mem_writes_addWrites {symbols : List Symbol} :
    symbol ∈ (context.addWrites deps symbols).writes ↔
      symbol ∈ deps.writes ∨ (symbol ∈ symbols ∧ context.tracks symbol) := by
  simp [addWrites, OrderedSet.mem_addAll]

theorem mem_callReads (hcall : insn.kind = .call) :
    symbol ∈ context.callReads insn ↔
      symbol ∈ context.argumentRegisters insn ∧ symbol ∉ insn.effectWrites := by
  rw [callReads, if_pos hcall, List.mem_filter, decide_eq_true_eq]

theorem mem_writes_addInstruction_iff :
    symbol ∈ (context.addInstruction deps insn).writes ↔
      symbol ∈ deps.writes ∨ (context.tracks symbol ∧ symbol ∈ context.writesOf insn) := by
  have hwritten : symbol ∈ (context.addWrites (context.addReads deps
        (effectReads insn ++ context.controlReads insn)) insn.effectWrites).writes ↔
      symbol ∈ deps.writes ∨ (symbol ∈ insn.effectWrites ∧ context.tracks symbol) :=
    mem_writes_addWrites
  rw [addInstruction, writesOf, List.mem_append]
  split
  · refine mem_writes_addWrites.trans ((or_congr_left hwritten).trans ?_)
    grind
  · refine hwritten.trans ?_
    simp only [List.not_mem_nil, or_false]
    grind

theorem mem_reads_addInstruction_iff :
    symbol ∈ (context.addInstruction deps insn).reads ↔
      symbol ∈ deps.reads ∨
        (context.tracks symbol ∧ symbol ∉ deps.writes ∧ symbol ∈ context.readsOf insn) := by
  have hread : symbol ∈ (context.addReads deps
        (effectReads insn ++ context.controlReads insn)).reads ↔
      symbol ∈ deps.reads ∨ (symbol ∈ effectReads insn ++ context.controlReads insn ∧
        context.tracks symbol ∧ symbol ∉ deps.writes) :=
    mem_reads_addReads
  have hwritten : symbol ∈ (context.addWrites (context.addReads deps
        (effectReads insn ++ context.controlReads insn)) insn.effectWrites).writes ↔
      symbol ∈ deps.writes ∨ (symbol ∈ insn.effectWrites ∧ context.tracks symbol) :=
    mem_writes_addWrites
  rw [addInstruction, readsOf, List.mem_append]
  by_cases hcall : insn.kind = .call
  · -- the arguments are read after the effect has been counted as written
    rw [if_pos hcall, mem_callReads hcall]
    refine mem_reads_addReads.trans ?_
    refine (or_congr hread (and_congr_right fun _ => and_congr_right fun _ =>
      not_congr hwritten)).trans ?_
    grind
  · rw [if_neg hcall, callReads, if_neg hcall]
    refine hread.trans ?_
    simp only [List.not_mem_nil, or_false]
    grind

/-- What the analysis of instructions counts as read: a tracked symbol that one of them
reads before any of them overwrites it. -/
theorem mem_reads_foldl_iff {insns : List Instruction} :
    symbol ∈ (insns.foldl context.addInstruction deps).reads ↔
      symbol ∈ deps.reads ∨ (context.tracks symbol ∧ symbol ∉ deps.writes ∧
        ReadBefore (fun insn => symbol ∈ context.readsOf insn)
          (fun insn => symbol ∈ context.writesOf insn) insns) := by
  induction insns generalizing deps with
  | nil => simp [ReadBefore.not_nil]
  | cons insn rest ih =>
      rw [List.foldl_cons, ih, mem_reads_addInstruction_iff, mem_writes_addInstruction_iff,
        ReadBefore.cons_iff]
      grind

end AnalysisContext

/-! ## What the emission looks for -/

/-- The only conditions on registers are those on the counter. -/
theorem Condition.eq_of_reg_mem_symbols {cc : Condition} {r : Reg}
    (hread : .reg r ∈ cc.toExpr.symbols) : r = .ecx ∧ (cc = .ecxz ∨ cc = .cxz) := by
  cases cc
  all_goals
    simp only [toExpr, less, notLess, Expr.flag, Expr.reg, Expr.symbols, List.mem_append,
      List.mem_singleton, List.not_mem_nil, Symbol.reg.injEq, reduceCtorEq, or_false] at hread
  · exact ⟨hread, Or.inl rfl⟩
  · exact ⟨hread, Or.inr rfl⟩

namespace AnalysisContext

variable {context : AnalysisContext} {insn : Instruction} {symbol : Symbol} {r : Reg}
  {insns : List Instruction}

/-- A read that the emission knows of: through the effect, by a return, or of an indirect
target. -/
def Finds (context : AnalysisContext) (symbol : Symbol) (insn : Instruction) : Prop :=
  symbol ∈ effectReads insn ∨
    (symbol ∈ context.controlReads insn ∧ ∀ cc, insn.kind ≠ .jcc cc)

theorem mem_effectReads_iff :
    symbol ∈ effectReads insn ↔ BlockContext.effectReferences insn.effect symbol = true := by
  rw [effectReads, BlockContext.effectReferences, List.mem_flatMap, List.any_eq_true]
  apply exists_congr
  intro write
  apply and_congr_right
  intro _
  rw [List.mem_append, Bool.or_eq_true, Expr.references_iff_mem_symbols]
  apply or_congr_right
  cases write.1.address? with
  | none => simp
  | some address => simp [Expr.references_iff_mem_symbols]

theorem mem_controlReads_iff :
    (.reg r ∈ context.controlReads insn ∧ ∀ cc, insn.kind ≠ .jcc cc) ↔
      BlockContext.targetReads insn (.reg r) = true ∨
        (insn.kind = .ret ∧ r = context.config.returnRegister) := by
  unfold controlReads BlockContext.targetReads
  cases hkind : insn.kind with
  | loop cc =>
      cases cc with
      | none => simp
      | some code =>
          have hflag : .reg r ∉ code.toExpr.symbols := by
            intro hread
            rcases Instruction.condition_of_loop hkind with rfl | rfl
            · exact absurd (Condition.eq_of_reg_mem_symbols hread).2 (by decide)
            · exact absurd (Condition.eq_of_reg_mem_symbols hread).2 (by decide)
          simp [hflag]
  | call | jmp =>
      cases insn.operands with
      | nil => simp
      | cons operand rest =>
          cases himm : operand.isImm <;> simp [himm, Expr.references_iff_mem_symbols]
  | ret | jcc => simp
  | _ => simp

/-- The emission finds what an instruction reads, if nothing before it overwrites the
register and no call stands before it. -/
theorem readsFirst_iff (context : AnalysisContext) (hr : r = context.config.returnRegister)
    (insns : List Instruction) :
    BlockContext.readsFirst (.reg r) r insns = true ↔
      ReadBefore (context.Finds (.reg r))
        (fun insn => insn.kind = .call ∨ .reg r ∈ insn.effectWrites) insns := by
  induction insns with
  | nil => exact iff_of_false Bool.false_ne_true ReadBefore.not_nil
  | cons insn rest ih =>
      have hfinds : context.Finds (.reg r) insn ↔
          (BlockContext.effectReferences insn.effect (.reg r) ||
            BlockContext.targetReads insn (.reg r) ||
            (insn.kind = .ret && Symbol.reg r = .reg r)) = true := by
        rw [Finds, mem_effectReads_iff, mem_controlReads_iff]
        simp [hr, or_assoc]
      have hstops : (insn.kind = .call ∨ .reg r ∈ insn.effectWrites) ↔
          (insn.kind = .call ||
            insn.effect.any fun write => write.1.asSymbol? = some (.reg r)) = true := by
        simp [Instruction.effectWrites]
      rw [ReadBefore.cons_iff, hfinds, hstops, ← ih, BlockContext.readsFirst]
      split
      · rename_i hread
        exact iff_of_true rfl (Or.inl hread)
      · rename_i hread
        rw [or_iff_right hread]
        split
        · rename_i hstop
          exact iff_of_false Bool.false_ne_true fun h => h.1 hstop
        · rename_i hstop
          exact (and_iff_right hstop).symm

/-- A read that the emission does not find: behind another call, as an argument of a call,
or by a condition on the counter. -/
def Overlooked (context : AnalysisContext) (symbol : Symbol) (insns : List Instruction) : Prop :=
  ∃ first reader rest, insns = first ++ reader :: rest ∧ symbol ∈ context.readsOf reader ∧
    (∀ insn ∈ first, symbol ∉ context.writesOf insn) ∧
    ((∃ insn ∈ first, insn.kind = .call) ∨ symbol ∈ context.callReads reader ∨
      ∃ cc, reader.kind = .jcc cc ∧ symbol ∈ cc.toExpr.symbols)

/-- Every read is found or overlooked. -/
theorem found_or_overlooked
    (hread : ReadBefore (fun insn => symbol ∈ context.readsOf insn)
      (fun insn => symbol ∈ context.writesOf insn) insns) :
    ReadBefore (context.Finds symbol)
        (fun insn => insn.kind = .call ∨ symbol ∈ insn.effectWrites) insns ∨
      context.Overlooked symbol insns := by
  obtain ⟨first, reader, rest, hsplit, hreads, hfirst⟩ := hread
  by_cases hcall : ∃ insn ∈ first, insn.kind = .call
  · exact Or.inr ⟨first, reader, rest, hsplit, hreads, hfirst, Or.inl hcall⟩
  · have hstops : ∀ insn ∈ first, ¬(insn.kind = .call ∨ symbol ∈ insn.effectWrites) := by
      rintro insn hinsn (hkind | hwrites)
      · exact hcall ⟨insn, hinsn, hkind⟩
      · exact hfirst insn hinsn (List.mem_append_left _ hwrites)
    by_cases hfinds : context.Finds symbol reader
    · exact Or.inl ⟨first, reader, rest, hsplit, hfinds, hstops⟩
    · refine Or.inr ⟨first, reader, rest, hsplit, hreads, hfirst, Or.inr ?_⟩
      obtain ⟨heffect, hcontrol⟩ := not_or.mp hfinds
      rw [readsOf, List.mem_append, List.mem_append, or_iff_right heffect] at hreads
      refine hreads.symm.imp_right fun hcondition => ?_
      obtain ⟨cc, hkind⟩ : ∃ cc, reader.kind = .jcc cc := by
        by_contra hnone
        exact hcontrol ⟨hcondition, not_exists.mp hnone⟩
      refine ⟨cc, hkind, ?_⟩
      rwa [controlReads, hkind] at hcondition

/-- A used argument of a call is in one of the two registers for it. -/
theorem eq_of_mem_callReads (hread : .reg r ∈ context.callReads insn) :
    r = context.config.fastcallRegisters.1 ∨ r = context.config.fastcallRegisters.2 := by
  have hargument : .reg r ∈ context.argumentRegisters insn := by
    rw [callReads] at hread
    split at hread
    · exact List.mem_of_mem_filter hread
    · exact absurd hread List.not_mem_nil
  unfold argumentRegisters at hargument
  split at hargument
  · split at hargument
    · obtain ⟨slot, hslot, hregister⟩ := List.mem_filterMap.mp hargument
      split at hregister
      · cases hregister
      · cases hregister
        exact List.mem_pair.mp (List.of_mem_zip hslot).1
    · exact absurd hargument List.not_mem_nil
  · exact absurd hargument List.not_mem_nil

/-- Nothing is overlooked of a register that calls destroy, that carries no arguments and
is not the counter. -/
theorem not_overlooked (hscratch : r ∈ context.config.scratchRegisters)
    (hfirst : r ≠ context.config.fastcallRegisters.1)
    (hsecond : r ≠ context.config.fastcallRegisters.2) (hcounter : r ≠ .ecx) :
    ¬context.Overlooked (.reg r) insns := by
  rintro ⟨first, reader, rest, -, -, hwrites, hcase⟩
  rcases hcase with ⟨insn, hinsn, hcall⟩ | hargument | ⟨cc, -, hcondition⟩
  · apply hwrites insn hinsn
    rw [writesOf, if_pos hcall]
    exact List.mem_append_right _ (List.mem_map_of_mem hscratch)
  · exact (eq_of_mem_callReads hargument).elim hfirst hsecond
  · exact hcounter (Condition.eq_of_reg_mem_symbols hcondition).1

end AnalysisContext

/-! ## The call statement -/

namespace BlockContext

variable (context : BlockContext) {insn : Instruction}

/-- The register in which calls return, as a symbol. -/
def result (context : BlockContext) : Symbol := .reg context.config.returnRegister

/-- Finishing a call keeps its result if it is used. -/
theorem finishCall_keeps (insn : Instruction) (rest : List Instruction) (ret : CType)
    (call : CExpr) (l : Lowering) :
    ∃ stmt, context.IsCall stmt call ∧
      (stmt = .assign (.ofSymbol context.result) call ↔
        ret.isVoid = false ∧ (context.result ∈ context.required ∨
          readsFirst context.result context.config.returnRegister rest)) ∧
      (context.finishCall insn rest ret call l).emission.body =
        l.emission.body ++ (l.state.commit [] context.savedFromCall).stmts ++ [stmt] := by
  have hused : (!ret.isVoid && (decide (context.result ∈ context.required) ||
        readsFirst context.result context.config.returnRegister rest)) = true ↔
      ret.isVoid = false ∧ (context.result ∈ context.required ∨
        readsFirst context.result context.config.returnRegister rest) := by
    simp
  rw [← hused, ← body_commit context, finishCall]
  split
  · rename_i hkept
    exact ⟨_, Or.inr rfl, iff_of_true rfl hkept, rfl⟩
  · rename_i hkept
    exact ⟨_, Or.inl rfl, iff_of_false (fun h => Stmt.noConfusion h) hkept, rfl⟩

/-- A call is finished with its result type. -/
theorem exists_finishCall (htarget : context.scope.target? insn ≠ none) (rest : List Instruction)
    (l : Lowering) :
    ∃ call declared, declared.emission.body = (context.callReady l).emission.body ∧
      context.call insn rest l =
        context.finishCall insn rest (context.resultType insn l) call declared := by
  cases hcase : context.scope.target? insn with
  | none => exact absurd hcase htarget
  | some target =>
      cases target with
      | indirect value =>
          have htype : context.resultType insn l = .word := by
            rw [resultType, callee?, hcase]
            rfl
          refine ⟨.callPointer ((context.callReady l).eval value) .word [], context.callReady l,
            rfl, ?_⟩
          rw [htype]
          simp only [call, hcase]
          rfl
      | address target =>
          obtain ⟨name, args, declared, hcall, -, hbody, -, -⟩ := context.call_direct hcase rest l
          exact ⟨.call name args, declared, hbody, hcall⟩

/-- A call is emitted as an assignment to the return register exactly if it returns
something that is required at the end of the block, or that the emission finds to be read
later on. Where the dependency analysis reads the register, this is so unless the read is
overlooked. Nothing is overlooked if calls destroy the return register, carry no argument
in it, and it is not the counter. -/
theorem call_result_kept_iff (analysis : AnalysisContext)
    (hconfig : analysis.config = context.config) (hkind : insn.kind = .call)
    (htarget : context.scope.target? insn ≠ none) (rest : List Instruction) (l : Lowering) :
    ∃ stmts stmt call,
      (context.lower insn rest l).emission.body = l.emission.body ++ stmts ++ [stmt] ∧
      context.IsCall stmt call ∧
      (stmt = .assign (.ofSymbol context.result) call ↔
        (context.resultType insn l).isVoid = false ∧ (context.result ∈ context.required ∨
          ReadBefore (analysis.Finds context.result)
            (fun insn => insn.kind = .call ∨ context.result ∈ insn.effectWrites) rest)) ∧
      ((context.resultType insn l).isVoid = false →
        context.result ∈ context.required ∨
          context.result ∈ (rest.foldl analysis.addInstruction {}).reads →
        stmt = .assign (.ofSymbol context.result) call ∨
          analysis.Overlooked context.result rest) ∧
      ((context.resultType insn l).isVoid = false →
        context.result ∈ context.required ∨
          context.result ∈ (rest.foldl analysis.addInstruction {}).reads →
        context.config.returnRegister ∈ context.config.scratchRegisters →
        context.config.returnRegister ≠ context.config.fastcallRegisters.1 →
        context.config.returnRegister ≠ context.config.fastcallRegisters.2 →
        context.config.returnRegister ≠ .ecx →
        stmt = .assign (.ofSymbol context.result) call) := by
  obtain ⟨call, declared, hready, hcall⟩ := context.exists_finishCall htarget rest l
  obtain ⟨stmt, hstmt, hkept, hbody⟩ :=
    context.finishCall_keeps insn rest (context.resultType insn l) call declared
  have hfinds := analysis.readsFirst_iff (congrArg Config.returnRegister hconfig.symm) rest
  have hlower : context.lower insn rest l = context.call insn rest l := by rw [lower, hkind]
  rw [← hcall, hready, callReady, body_commit, List.append_assoc l.emission.body, ← hlower] at hbody
  rw [result, hfinds] at hkept
  have hread : (context.resultType insn l).isVoid = false →
      context.result ∈ context.required ∨
        context.result ∈ (rest.foldl analysis.addInstruction {}).reads →
      stmt = .assign (.ofSymbol context.result) call ∨
        analysis.Overlooked context.result rest := by
    rintro hvoid (hrequired | hreads)
    · exact Or.inl (hkept.mpr ⟨hvoid, Or.inl hrequired⟩)
    · have hbefore := (AnalysisContext.mem_reads_foldl_iff.mp hreads).resolve_left List.not_mem_nil
      exact (AnalysisContext.found_or_overlooked hbefore.2.2).imp_left fun hfound =>
        hkept.mpr ⟨hvoid, Or.inr hfound⟩
  refine ⟨_, stmt, call, hbody, hstmt, hkept, hread, ?_⟩
  intro hvoid hneeded hscratch hfirst hsecond hcounter
  apply (hread hvoid hneeded).resolve_right
  apply AnalysisContext.not_overlooked
  · rwa [hconfig]
  · rwa [hconfig]
  · rwa [hconfig]
  · exact hcounter

end BlockContext

/-! ### Two calls in a row -/

namespace CallAndPass

def first : Instruction := .ofMnemonic 16 "call" [.imm 0x2000]

def second : Instruction := .ofMnemonic 21 "call" [.imm 0x3000]

/-- The function that is called second takes its argument in a register. -/
def prototype : FunctionType :=
  { ret := .word, params := [{ type := .word }], fastcall := true }

def declarations : DeclTable := .ofList [{ name := "sub_3000", kind := .function prototype }]

def scope : FrameScope :=
  { disassembly := Program.disassembler {}, entry := 16, frameRegister := .ebp }

def start : Lowering :=
  { emission := { declarations }, state := { live := .empty }, successors := [] }

def context (config : Config) : BlockContext := { scope, config, block := 16, required := [] }

def analysis (config : Config) : AnalysisContext := { scope, declarations, config }

def copy : Instruction := .ofMnemonic 21 "mov" [.ofReg .ebx, .ofReg .eax]

/-- With the usual registers a result that is copied later on is kept. -/
theorem call_result_kept_copied :
    ∃ stmts stmt call,
      ((context {}).lower first [copy] start).emission.body = stmts ++ [stmt] ∧
      stmt = .assign (.ofSymbol (.reg .eax)) call := by
  obtain ⟨stmts, stmt, call, hbody, -, -, -, hkept⟩ :=
    (context {}).call_result_kept_iff (analysis {}) rfl
      (show first.kind = .call by decide +kernel) (fun h => Option.some_ne_none _ h) [copy] start
  refine ⟨stmts, stmt, call, hbody, ?_⟩
  exact hkept (by decide +kernel) (Or.inr (by decide +kernel)) (by decide) (by decide) (by decide)
    (by decide)

/-- Calls that carry an argument in the register in which they return. -/
def passing : Config := { fastcallRegisters := (.eax, .edx) }

/-- The result of the first call is the argument of the second one, and is dropped. -/
theorem passed_result_dropped :
    (.reg .eax ∈ ([second].foldl (analysis passing).addInstruction {}).reads) ∧
      ((context passing).resultType first start).isVoid = false ∧
      ((context passing).lowerAll [first, second] start).emission.body.map CText.stmt =
        ["sub_2000();", "sub_3000(eax);"] := by
  decide +kernel

end CallAndPass

end Uncompile
