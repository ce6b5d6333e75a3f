import Uncompile.Proofs.Emission.CallOperands
import Uncompile.Proofs.Emission.Evolution

/-!
# The frame across calls

A call destroys the scratch registers. What is pending and reads one of them is
written out before the call. Registers that the frame manages are never pending, so
they go through a call with the values they have: nothing reads a scratch register
afterwards exactly if none of them did before. That is so where managed registers
are only computed from managed registers. A stack pointer that has been moved by a
scratch register loses its meaning.
-/

namespace Uncompile

/-- A value that mentions none of some symbols. -/
def Expr.Avoids (value : Expr) (symbols : List Symbol) : Prop :=
  ∀ symbol ∈ symbols, value.references symbol = false

instance (value : Expr) (symbols : List Symbol) : Decidable (value.Avoids symbols) :=
  inferInstanceAs (Decidable (∀ symbol ∈ symbols, _))

/-- The registers that a call destroys. -/
def EmissionContext.scratch (context : EmissionContext) : List Symbol :=
  context.config.scratchRegisters.map Symbol.reg

namespace BlockState

variable {state : BlockState} {symbols : List Symbol} {symbol : Symbol}

theorem get?_live_discardAll :
    (symbols.foldl discard state).live.get? symbol =
      if symbol ∈ symbols then none else state.live.get? symbol := by
  induction symbols generalizing state with
  | nil => rfl
  | cons head rest ih =>
      rw [List.foldl_cons, ih, get?_live_discard]
      by_cases hhead : head = symbol
      · simp [hhead]
      · have hhead' : symbol ≠ head := Ne.symm hhead
        simp [hhead, hhead']

theorem mem_pending_discardAll :
    symbol ∈ (symbols.foldl discard state).pending ↔ symbol ∈ state.pending ∧ symbol ∉ symbols := by
  induction symbols generalizing state with
  | nil => simp
  | cons head rest ih =>
      rw [List.foldl_cons, ih]
      simp [discard, and_assoc]

/-- What is still pending after a commit was not forced out. -/
theorem force_eq_false_of_pending {required : List Symbol} {force : Symbol → Expr → Bool}
    {value : Expr} (hpending : symbol ∈ (state.commit required force).state.pending)
    (hvalue : (state.commit required force).state.live.get? symbol = some value) :
    force symbol value = false := by
  obtain ⟨hbefore, hnot⟩ := mem_pending_commit.mp hpending
  rw [BlockState.get?_live_commit, if_neg hnot] at hvalue
  by_contra hforced
  apply hnot
  apply mem_targets_of_mem_wanted
  exact List.mem_filter.mpr ⟨hbefore, by simp [hvalue, hforced]⟩

/-- A commit leaves managed registers bound as they are. -/
theorem Framed.get?_live_commit {managed : Symbol → Bool} (h : state.Framed managed)
    (hmanaged : managed symbol) (required : List Symbol) (force : Symbol → Expr → Bool) :
    (state.commit required force).state.live.get? symbol = state.live.get? symbol := by
  have hnot : symbol ∉ state.targets required force := by
    intro htarget
    rw [h.unmanaged_of_pending (mem_pending_of_mem_targets htarget)] at hmanaged
    exact Bool.false_ne_true hmanaged
  rw [BlockState.get?_live_commit, if_neg hnot]

end BlockState

namespace BlockContext

variable (context : BlockContext) {insn : Instruction}

/-! ## The state after a call -/

theorem framed_callReady {l : Lowering} (h : l.state.Framed context.scope.isManaged) :
    (context.callReady l).state.Framed context.scope.isManaged := by
  rw [callReady, state_commit]
  exact h.commit _ _

theorem applyFrameUpdates_of_effect_nil (heffect : insn.effect = []) (l : Lowering) :
    context.applyFrameUpdates insn l = l := by
  rw [applyFrameUpdates, heffect]
  rfl

theorem state_finishCall (heffect : insn.effect = []) (rest : List Instruction) (ret : CType)
    (call : CExpr) (l : Lowering) :
    (context.finishCall insn rest ret call l).state =
      context.scratch.foldl BlockState.discard (l.state.commit [] context.savedFromCall).state := by
  rw [← state_commit context, finishCall, context.applyFrameUpdates_of_effect_nil heffect]
  split <;> rfl

theorem state_unmodeled (heffect : insn.effect = []) (l : Lowering) :
    (context.unmodeled insn l).state = (l.state.commit [] fun _ _ => true).state := by
  rw [← state_commit context, unmodeled, context.applyFrameUpdates_of_effect_nil heffect, heffect]
  rfl

/-- A call without effect of its own forgets the scratch registers, after what reads
them has been written out; one whose target is not understood has everything
written out. -/
theorem state_call (heffect : insn.effect = []) (rest : List Instruction) (l : Lowering) :
    (context.call insn rest l).state =
      if (context.scope.target? insn).isSome then
        context.scratch.foldl BlockState.discard
          ((context.callReady l).state.commit [] context.savedFromCall).state
      else ((context.callReady l).state.commit [] fun _ _ => true).state := by
  cases htarget : context.scope.target? insn with
  | none =>
      simp only [call, htarget]
      exact context.state_unmodeled heffect _
  | some target =>
      cases target with
      | indirect value =>
          simp only [call, htarget]
          exact context.state_finishCall heffect rest _ _ _
      | address target =>
          obtain ⟨name, args, declared, hcall, hstate, _⟩ :=
            context.call_direct htarget rest l
          rw [hcall, context.state_finishCall heffect, hstate]
          rfl

/-- After a call no pending value mentions a scratch register. -/
theorem avoids_of_pending_call (heffect : insn.effect = []) (rest : List Instruction)
    (l : Lowering) {symbol : Symbol} {value : Expr}
    (hpending : symbol ∈ (context.call insn rest l).state.pending)
    (hvalue : (context.call insn rest l).state.live.get? symbol = some value) :
    value.Avoids context.scratch := by
  rw [state_call context heffect] at hpending hvalue
  by_cases htarget : (context.scope.target? insn).isSome
  · rw [if_pos htarget] at hpending hvalue
    obtain ⟨hpending, hkept⟩ := BlockState.mem_pending_discardAll.mp hpending
    rw [BlockState.get?_live_discardAll, if_neg hkept] at hvalue
    have hunsaved : (decide (symbol ∉ context.scratch) &&
        context.scratch.any fun clobbered => value.references clobbered) = false :=
      BlockState.force_eq_false_of_pending hpending hvalue
    rw [decide_eq_true hkept, Bool.true_and, List.any_eq_false] at hunsaved
    exact fun clobbered hmem => Bool.eq_false_of_not_eq_true (hunsaved clobbered hmem)
  · rw [if_neg htarget] at hpending hvalue
    exact absurd (BlockState.force_eq_false_of_pending hpending hvalue) Bool.true_eq_false.mp

/-- A managed register goes through a call with the value it has, unless it is a
scratch register. -/
theorem get?_live_call (heffect : insn.effect = []) (rest : List Instruction) {l : Lowering}
    (h : l.state.Framed context.scope.isManaged) {symbol : Symbol}
    (hmanaged : context.scope.isManaged symbol) :
    (context.call insn rest l).state.live.get? symbol =
      if (context.scope.target? insn).isSome ∧ symbol ∈ context.scratch then none
      else l.state.live.get? symbol := by
  have hready : (context.callReady l).state.live.get? symbol = l.state.live.get? symbol := by
    rw [callReady, state_commit, h.get?_live_commit hmanaged]
  rw [state_call context heffect]
  by_cases htarget : (context.scope.target? insn).isSome
  · rw [if_pos htarget, BlockState.get?_live_discardAll,
      (context.framed_callReady h).get?_live_commit hmanaged, hready]
    simp only [htarget, true_and]
  · rw [if_neg htarget, (context.framed_callReady h).get?_live_commit hmanaged, hready,
      if_neg fun hboth => htarget hboth.1]

/-- After a call nothing mentions a scratch register exactly if the values of the
managed registers that go through it did not. -/
theorem avoids_call_iff (heffect : insn.effect = []) (rest : List Instruction) {l : Lowering}
    (h : l.state.Framed context.scope.isManaged) :
    (∀ symbol value, (context.call insn rest l).state.live.get? symbol = some value →
        value.Avoids context.scratch) ↔
      ∀ symbol value, context.scope.isManaged symbol →
        ¬((context.scope.target? insn).isSome ∧ symbol ∈ context.scratch) →
        l.state.live.get? symbol = some value → value.Avoids context.scratch := by
  constructor
  · intro hafter symbol value hmanaged hkept hvalue
    apply hafter symbol
    rw [context.get?_live_call heffect rest h hmanaged, if_neg hkept, hvalue]
  · intro hbefore symbol value hvalue
    have hframed : (context.call insn rest l).state.Framed context.scope.isManaged := by
      have hevolves : context.Evolves insn l.state (context.call insn rest l) :=
        context.evolves_call .refl rest
      rw [BlockContext.Evolves, heffect] at hevolves
      exact h.evolves (fun _ _ hwrite => absurd hwrite List.not_mem_nil) hevolves
    by_cases hpending : symbol ∈ (context.call insn rest l).state.pending
    · exact context.avoids_of_pending_call heffect rest l hpending hvalue
    · have hmanaged : context.scope.isManaged symbol :=
        Bool.eq_true_of_not_eq_false fun hunmanaged =>
          hpending ((hframed.pending_iff symbol value hvalue).mpr hunmanaged)
      rw [context.get?_live_call heffect rest h hmanaged] at hvalue
      split at hvalue
      · cases hvalue
      · exact hbefore symbol value hmanaged ‹_› hvalue

end BlockContext

/-! ## Steady frames -/

/-- An instruction computes what the frame manages from what the frame manages. -/
def Instruction.MovesFrame (managed : Symbol → Bool) (insn : Instruction) : Prop :=
  ∀ write ∈ insn.effect, ∀ symbol ∈ write.1.asSymbol?, managed symbol → write.2.Steady managed

instance (managed : Symbol → Bool) (insn : Instruction) : Decidable (insn.MovesFrame managed) :=
  inferInstanceAs (Decidable (∀ write ∈ insn.effect, ∀ symbol ∈ write.1.asSymbol?, _))

/-- Steady values stay steady where what they read has steady values. -/
theorem Expr.Steady.eval {managed : Symbol → Bool} {state : BlockState} {e : Expr}
    (he : e.Steady managed)
    (hvalue : ∀ symbol value, e.references symbol → state.live.get? symbol = some value →
      value.Steady managed) : (state.eval e).Steady managed := by
  constructor
  · rw [← Expr.within_memoryless_iff]
    apply Expr.within_reduce
    apply Expr.within_bind (Expr.within_memoryless_iff.mpr he.memoryless)
    intro symbol value hread hbound
    exact Expr.within_memoryless_iff.mpr (hvalue symbol value hread hbound).memoryless
  · rw [← Expr.within_ofSymbols_iff]
    apply Expr.within_reduce
    apply Expr.within_bind (Expr.within_ofSymbols_iff.mpr he.reads)
    intro symbol value hread hbound
    exact Expr.within_ofSymbols_iff.mpr (hvalue symbol value hread hbound).reads

/-- A block state in which the managed registers have values that neither stores
nor commits can change. -/
structure BlockState.SteadyFrame (managed : Symbol → Bool) (state : BlockState) : Prop
    extends state.Framed managed where
  steady : ∀ symbol value, state.live.get? symbol = some value → managed symbol →
    value.Steady managed

namespace BlockState.SteadyFrame

variable {managed : Symbol → Bool} {state : BlockState}

theorem steady_eval (h : state.SteadyFrame managed) {e : Expr} (he : e.Steady managed) :
    (state.eval e).Steady managed :=
  he.eval fun symbol value hread hvalue =>
    h.steady symbol value hvalue (he.reads symbol hread (h.processor symbol value hvalue))

/-- Writes that compute managed registers from managed registers keep the frame
steady. -/
theorem evolves {effect : Effect} {state' : BlockState}
    (hwrites : ∀ symbol value, (.sym symbol, value) ∈ effect →
      symbol.onProcessor ∧ ∀ read, value.references read → read.isNamed = false)
    (hmoves : ∀ symbol value, (.sym symbol, value) ∈ effect → managed symbol →
      value.Steady managed)
    (h : state.SteadyFrame managed) (hevolves : Evolves managed effect state state') :
    state'.SteadyFrame managed := by
  refine ⟨h.toFramed.evolves hwrites hevolves, ?_⟩
  induction hevolves with
  | refl => exact h.steady
  | commit _ required force ih =>
      intro symbol value hvalue
      rw [get?_live_commit] at hvalue
      split at hvalue
      · cases hvalue
      · exact ih symbol value hvalue
  | discard _ gone ih =>
      intro symbol value hvalue
      rw [get?_live_discard] at hvalue
      split at hvalue
      · cases hvalue
      · exact ih symbol value hvalue
  | update _ hread hwrite ih ihread =>
      intro symbol value hvalue hmanaged
      rw [get?_live_update] at hvalue
      split at hvalue
      · rename_i hsame
        obtain rfl := Option.some.inj hvalue
        have hframe : SteadyFrame managed _ := ⟨h.toFramed.evolves hwrites hread, ihread⟩
        exact hframe.steady_eval (hmoves _ _ hwrite (hsame ▸ hmanaged))
      · exact ih symbol value hvalue hmanaged

/-- A steady value mentions no register that the frame does not manage. -/
theorem avoids (h : state.SteadyFrame managed) {symbols : List Symbol}
    (hsymbols : ∀ symbol ∈ symbols, symbol.onProcessor ∧ managed symbol = false)
    {symbol : Symbol} {value : Expr} (hmanaged : managed symbol)
    (hvalue : state.live.get? symbol = some value) : value.Avoids symbols := by
  intro read hread
  obtain ⟨hprocessor, hunmanaged⟩ := hsymbols read hread
  by_contra hreads
  have hsteady := h.steady symbol value hvalue hmanaged
  have hmanaged' := hsteady.reads read (Bool.eq_true_of_not_eq_false hreads) hprocessor
  rw [hunmanaged] at hmanaged'
  exact Bool.false_ne_true hmanaged'

end BlockState.SteadyFrame

/-- The frame is steady at every point before which managed registers have only
been computed from managed registers. -/
theorem EmissionContext.steadyFrame_lowerUpTo (context : EmissionContext) (deps : Dependencies)
    (block : Block) (emission : Emission) {first : List Instruction}
    (hlifted : ∀ insn ∈ first, insn.Lifted)
    (hmoves : ∀ insn ∈ first, insn.MovesFrame context.scope.isManaged)
    (rest : List Instruction) :
    ((context.blockContext deps block).lowerUpTo first rest
      (context.blockStart block emission)).state.SteadyFrame context.scope.isManaged := by
  apply BlockContext.lowerUpTo_invariant (P := BlockState.SteadyFrame context.scope.isManaged)
  · intro insn hinsn rest l h
    exact h.evolves (fun _ _ => (hlifted insn hinsn).symbol_write)
      (fun symbol _ hwrite => hmoves insn hinsn _ hwrite symbol rfl)
      ((context.blockContext deps block).evolves_lower insn rest l)
  · exact ⟨context.scope.framed_blockFrame block.address,
      fun _ _ hvalue _ => FrameScope.steady_blockFrame hvalue⟩

/-! ## Meaning across a call -/

/-- What a call leaves behind: the scratch registers and memory may be anything, all
else is as it was. -/
structure CallOutcome (scratch : List Symbol) (c c' : CState) (machine machine' : MachineState) :
    Prop where
  vars : ∀ symbol, symbol.isNamed = false → symbol ∉ scratch → c'.symbol symbol = c.symbol symbol
  regs : ∀ symbol, symbol ∉ scratch → machine'.symbol symbol = machine.symbol symbol

namespace CallOutcome

variable {scratch : List Symbol} {c c' : CState} {machine machine' : MachineState}

theorem eval_eq (h : CallOutcome scratch c c' machine machine') {value : Expr}
    (hunnamed : ∀ read, value.references read → read.isNamed = false)
    (havoids : value.Avoids scratch) (hmemory : value.readsMemory = false) (world : World) :
    value.eval (c'.valuation world) = value.eval (c.valuation world) := by
  apply Expr.eval_congr
  · intro read hread
    apply h.vars read (hunnamed read hread)
    intro hmem
    rw [havoids read hmem] at hread
    exact Bool.false_ne_true hread
  · intro hreads
    rw [hmemory] at hreads
    exact absurd hreads Bool.false_ne_true
  · rfl

/-- A call may leave any word in a scratch register. -/
theorem setVar {symbol : Symbol} (hscratch : symbol ∈ scratch) (hprocessor : symbol.onProcessor)
    (c : CState) (word : Word) (machine : MachineState) :
    CallOutcome scratch c (c.setVar symbol.text word) machine machine where
  vars other hnamed hother := by
    have hne : other ≠ symbol := fun hsame => hother (hsame ▸ hscratch)
    rw [CState.symbol_setVar hprocessor hnamed, if_neg hne]
  regs _ _ := rfl

end CallOutcome

namespace BlockState

variable {state : BlockState}

theorem symbol_foldl_settle_of_notMem {world : World} {live : Binding} {order : List Symbol}
    (hprocessor : ∀ symbol ∈ order, symbol.onProcessor) {symbol : Symbol}
    (hsymbol : symbol.isNamed = false) (hnot : symbol ∉ order) (c : CState) :
    (order.foldl (settle world live) c).symbol symbol = c.symbol symbol := by
  induction order generalizing c with
  | nil => rfl
  | cons head rest ih =>
      obtain ⟨hhead, hrest⟩ := List.forall_mem_cons.mp hprocessor
      obtain ⟨hne, hnot⟩ := not_or.mp (List.mem_cons.not.mp hnot)
      rw [List.foldl_cons, ih hrest hnot, settle, CState.symbol_setVar hhead hsymbol, if_neg hne]

/-- A commit, even with a circle, changes no value that mentions nothing pending. -/
theorem exists_run?_commit (hstate : state.WellFormed) (required : List Symbol)
    (force : Symbol → Expr → Bool) (world : CWorld) (c : CState) :
    ∃ c', Stmt.run? world (state.commit required force).stmts c = some (c', .next) ∧
      ∀ value : Expr, (∀ read, value.references read → read.isNamed = false) →
        value.Avoids state.pending →
        value.eval (c'.valuation world.toWorld) = value.eval (c.valuation world.toWorld) := by
  refine ⟨_, run?_commit hstate world c, ?_⟩
  intro value hunnamed havoids
  have hpending : ∀ symbol ∈ (sequence state.live (state.targets required force)).1,
      symbol ∈ state.pending :=
    fun _ hordered => mem_pending_of_mem_targets (mem_sequence_targets.mp hordered)
  apply Expr.eval_congr
  · intro read hread
    apply symbol_foldl_settle_of_notMem _ (hunnamed read hread)
    · intro hordered
      rw [havoids read (hpending read hordered)] at hread
      exact Bool.false_ne_true hread
    · exact fun symbol hordered => hstate.onProcessor_of_pending (hpending symbol hordered)
  · exact fun _ => ⟨congrArg Memory.load (memory_settled world.toWorld c), rfl⟩
  · rfl

end BlockState

namespace BlockContext

variable (context : BlockContext) {insn : Instruction}

/-- What would be lost in a call is written out in two commits, and then the call
stands. -/
theorem body_call (rest : List Instruction) {l : Lowering}
    (h : l.state.Framed context.scope.isManaged) :
    ∃ force stmt, ((context.scope.target? insn).isSome → ∃ call, context.IsCall stmt call) ∧
      (context.call insn rest l).emission.body = (context.callReady l).emission.body ++
        ((context.callReady l).state.commit [] force).stmts ++ [stmt] := by
  cases htarget : context.scope.target? insn with
  | none =>
      refine ⟨fun _ _ => true, .asm insn.text, fun hsome => absurd hsome Bool.false_ne_true, ?_⟩
      rw [← body_commit context]
      simp only [call, htarget]
      rfl
  | some target =>
      have hunknown : (context.callReady l).state.live.get? .unknown = none := by
        cases hvalue : (context.callReady l).state.live.get? .unknown with
        | none => rfl
        | some value =>
            have hprocessor := (context.framed_callReady h).processor _ _ hvalue
            exact absurd hprocessor Bool.false_ne_true
      have hsome : context.scope.target? insn ≠ none := by
        rw [htarget]
        exact Option.some_ne_none target
      obtain ⟨stmt, call, hcall, _, hbody, _⟩ := context.call_emits hsome rest hunknown
      exact ⟨context.savedFromCall, stmt, fun _ => ⟨call, hcall⟩, hbody⟩

/-- A managed register whose value reads no memory and mentions nothing that is
pending or destroyed still denotes the machine's register after the call. -/
theorem meaning_call (heffect : insn.effect = []) (rest : List Instruction) {l : Lowering}
    (h : l.state.Framed context.scope.isManaged) :
    ∃ stmts stmt,
      (context.call insn rest l).emission.body = l.emission.body ++ stmts ++ [stmt] ∧
      ((context.scope.target? insn).isSome → ∃ call, context.IsCall stmt call) ∧
      ∀ (world : CWorld) (c : CState), ∃ called,
        Stmt.run? world stmts c = some (called, .next) ∧
        ∀ machine returned machine',
          CallOutcome context.scratch called returned machine machine' →
          ∀ symbol value, context.scope.isManaged symbol → symbol ∉ context.scratch →
            l.state.live.get? symbol = some value →
            value.Avoids (context.scratch ++ l.state.pending) → value.readsMemory = false →
            value.eval (c.valuation world.toWorld) = machine.symbol symbol →
            ((returned.valuation world.toWorld).bind
              (context.call insn rest l).state.live).symbol symbol = machine'.symbol symbol := by
  obtain ⟨force, stmt, hcall, hbody⟩ := context.body_call rest h
  have hready := context.framed_callReady h
  refine ⟨(l.state.commit (context.required.filter fun symbol =>
      symbol ∉ context.config.scratchRegisters.map Symbol.reg) ifReadsMemory).stmts ++
    ((context.callReady l).state.commit [] force).stmts, stmt, ?_, hcall, ?_⟩
  · rw [hbody, callReady, body_commit, List.append_assoc l.emission.body]
  · intro world c
    obtain ⟨ready, hrun, hmeaning⟩ :=
      BlockState.exists_run?_commit h.toWellFormed _ ifReadsMemory world c
    obtain ⟨called, hrun', hmeaning'⟩ :=
      BlockState.exists_run?_commit hready.toWellFormed [] force world ready
    refine ⟨called, (Stmt.run?_append_of_next hrun).trans hrun', ?_⟩
    intro machine returned machine' houtcome symbol value hmanaged hkept hvalue havoids hmemory
      hword
    have hunnamed := h.unnamed symbol value hvalue
    obtain ⟨hscratch, hpending⟩ := List.forall_mem_append.mp havoids
    have hpending' : value.Avoids (context.callReady l).state.pending := by
      intro read hread
      rw [callReady, state_commit] at hread
      exact hpending read (BlockState.mem_pending_commit.mp hread).1
    have hlive : (context.call insn rest l).state.live.get? symbol = some value := by
      rw [context.get?_live_call heffect rest h hmanaged, if_neg fun hboth => hkept hboth.2, hvalue]
    calc
      _ = value.eval (returned.valuation world.toWorld) := Valuation.bind_symbol_of_some hlive
      _ = value.eval (called.valuation world.toWorld) :=
        houtcome.eval_eq hunnamed hscratch hmemory world.toWorld
      _ = value.eval (ready.valuation world.toWorld) := hmeaning' value hunnamed hpending'
      _ = value.eval (c.valuation world.toWorld) := hmeaning value hunnamed hpending
      _ = machine.symbol symbol := hword
      _ = machine'.symbol symbol := (houtcome.regs symbol hkept).symm

end BlockContext

theorem Opcode.eq_call_of_kind {opcode : Opcode} {operands : List Operand}
    {alters terminates : Bool} (hkind : opcode.kind operands alters terminates = .call) :
    opcode = .call := by
  revert hkind
  fun_cases Opcode.kind opcode operands alters terminates <;> intro hkind <;>
    first | rfl | cases hkind

/-- A lifted call has no effect of its own. -/
theorem Instruction.Lifted.effect_call {insn : Instruction} (hlifted : insn.Lifted)
    (hkind : insn.kind = .call) : insn.effect = [] := by
  rw [hlifted.effect_eq, Opcode.eq_call_of_kind hkind]
  rfl

namespace EmissionContext

/-- What a call leaves in the block state, at any point of a block of lifted
instructions. No pending value mentions a scratch register. No value at all does
exactly if those of the managed registers that go through the call did not, which
is so where all instructions before it compute managed registers from managed
registers. A managed register whose value mentions no scratch register, nothing
pending and no memory denotes the machine's register afterwards, whatever the call
does to scratch registers and memory. -/
theorem call_keeps_frame_iff (context : EmissionContext) (deps : Dependencies) {block : Block}
    (hlifted : ∀ insn ∈ block.instructions, insn.Lifted) {first rest : List Instruction}
    {insn : Instruction} (hinsns : block.instructions = first ++ insn :: rest)
    (hcall : insn.kind = .call) (emission : Emission) {before after : Lowering}
    (hbefore : (context.blockContext deps block).lowerUpTo first (insn :: rest)
      (context.blockStart block emission) = before)
    (hafter : (context.blockContext deps block).lower insn rest before = after) :
    (context.blockContext deps block).lowerAll block.instructions
        (context.blockStart block emission) =
      (context.blockContext deps block).lowerAll rest after ∧
    (∀ symbol ∈ after.state.pending, ∀ value, after.state.live.get? symbol = some value →
      value.Avoids context.scratch) ∧
    ((∀ symbol value, after.state.live.get? symbol = some value →
        value.Avoids context.scratch) ↔
      ∀ symbol value, context.scope.isManaged symbol →
        ¬((context.scope.target? insn).isSome ∧ symbol ∈ context.scratch) →
        before.state.live.get? symbol = some value → value.Avoids context.scratch) ∧
    ((∀ insn ∈ first, insn.MovesFrame context.scope.isManaged) →
      (∀ symbol ∈ context.scratch, context.scope.isManaged symbol = false) →
      ∀ symbol value, after.state.live.get? symbol = some value →
        value.Avoids context.scratch) ∧
    ∃ stmts stmt, after.emission.body = before.emission.body ++ stmts ++ [stmt] ∧
      ((context.scope.target? insn).isSome →
        ∃ call, (context.blockContext deps block).IsCall stmt call) ∧
      ∀ (world : CWorld) (c : CState), ∃ called,
        Stmt.run? world stmts c = some (called, .next) ∧
        ∀ machine returned machine',
          CallOutcome context.scratch called returned machine machine' →
          ∀ symbol value, context.scope.isManaged symbol → symbol ∉ context.scratch →
            before.state.live.get? symbol = some value →
            value.Avoids (context.scratch ++ before.state.pending) → value.readsMemory = false →
            value.eval (c.valuation world.toWorld) = machine.symbol symbol →
            ((returned.valuation world.toWorld).bind after.state.live).symbol symbol =
              machine'.symbol symbol := by
  rw [hinsns, List.forall_mem_append, List.forall_mem_cons] at hlifted
  obtain ⟨hfirst, hinsn, _⟩ := hlifted
  have heffect := hinsn.effect_call hcall
  have hframed : before.state.Framed context.scope.isManaged := by
    rw [← hbefore]
    exact context.framed_lowerUpTo deps block emission hfirst (insn :: rest)
  have hlower : (context.blockContext deps block).call insn rest before = after := by
    rw [← hafter, BlockContext.lower, hcall]
  have hiff := (context.blockContext deps block).avoids_call_iff heffect rest hframed
  have hmeaning := (context.blockContext deps block).meaning_call heffect rest hframed
  rw [hlower] at hiff hmeaning
  refine ⟨?_, ?_, hiff, ?_, hmeaning⟩
  · rw [hinsns, BlockContext.lowerAll_lowerUpTo, hbefore, BlockContext.lowerAll, hafter]
  · intro symbol hpending value hvalue
    rw [← hlower] at hpending hvalue
    exact BlockContext.avoids_of_pending_call _ heffect rest before hpending hvalue
  · intro hmoves hscratch
    have hsteady : before.state.SteadyFrame context.scope.isManaged := by
      rw [← hbefore]
      exact context.steadyFrame_lowerUpTo deps block emission hfirst hmoves (insn :: rest)
    refine hiff.mpr fun symbol value hmanaged _ hvalue => hsteady.avoids ?_ hmanaged hvalue
    intro register hregister
    obtain ⟨r, _, rfl⟩ := List.mem_map.mp hregister
    exact ⟨rfl, hscratch (.reg r) hregister⟩

end EmissionContext

/-! ### Moving the stack pointer before a call -/

namespace MovedStack

open CopyAndCall (call)
open CWorld (silent)

def context : EmissionContext := CopyAndCall.context.toEmissionContext

def deps : Dependencies := { entry := 0, blocks := [] }

/-- The stack pointer moves by a scratch register. -/
def byRegister : List Instruction :=
  [.ofMnemonic 0 "lea" [.ofReg .esp, .mem { base := some .esp, index := some .eax }]]

/-- The stack pointer moves by a constant, and a scratch register is copied. -/
def byConstant : List Instruction :=
  [.ofMnemonic 0 "sub" [.ofReg .esp, .imm 8], .ofMnemonic 2 "mov" [.ofReg .esi, .ofReg .ecx]]

def block (moves : List Instruction) : Block :=
  { address := 0, instructions := moves ++ [call], successors := [] }

/-- Where the call of a block is reached. -/
def before (moves : List Instruction) : Lowering :=
  (context.blockContext deps (block moves)).lowerUpTo moves [call]
    (context.blockStart (block moves) { declarations := {} })

def after (moves : List Instruction) : Lowering :=
  (context.blockContext deps (block moves)).lower call [] (before moves)

def entry : MachineState :=
  { symbol := fun
      | .framePtr | .reg .esp => 0x1000
      | .reg .eax => 0xfffffff0
      | _ => 0
    memory := fun _ => 0 }

/-- The stack pointer stays bound to an expression over the destroyed register, so
it is no longer the machine's. -/
theorem stack_pointer_lost :
    ∃ value stmt returned, (after byRegister).state.live.get? (.reg .esp) = some value ∧
      ¬ value.Avoids context.scratch ∧ (after byRegister).emission.body = [stmt] ∧
      CallOutcome context.scratch (.ofMachine entry) returned
        (entry.run silent.toWorld byRegister) (entry.run silent.toWorld byRegister) ∧
      value.eval ((CState.ofMachine entry).valuation silent.toWorld) =
        (entry.run silent.toWorld byRegister).symbol (.reg .esp) ∧
      ((returned.valuation silent.toWorld).bind (after byRegister).state.live).symbol (.reg .esp) ≠
        (entry.run silent.toWorld byRegister).symbol (.reg .esp) := by
  have hlive : (after byRegister).state.live.get? (.reg .esp) =
      some (.add (.sym .framePtr) (.reg .eax)) := by decide +kernel
  obtain ⟨stmt, hbody⟩ : ∃ stmt, (after byRegister).emission.body = [stmt] :=
    List.length_eq_one_iff.mp (by decide +kernel)
  refine ⟨_, stmt, (CState.ofMachine entry).setVar (Symbol.reg .eax).text 0, hlive,
    by decide +kernel, hbody, .setVar (by decide +kernel) rfl _ _ _, by decide +kernel, ?_⟩
  rw [Valuation.bind_symbol_of_some hlive]
  decide +kernel

/-- The copy is written out before the call, and the stack pointer is the machine's
after it, also when the call leaves another word in the copied register. -/
theorem call_keeps_frame_constant :
    (∀ symbol value, (after byConstant).state.live.get? symbol = some value →
      value.Avoids context.scratch) ∧
    ∃ stmts stmt called, (after byConstant).emission.body = stmts ++ [stmt] ∧
      Stmt.run? silent stmts (.ofMachine entry) = some (called, .next) ∧
      (((called.setVar (Symbol.reg .ecx).text 7).valuation silent.toWorld).bind
        (after byConstant).state.live).symbol (.reg .esp) = 0xff8 := by
  have hlifted : ∀ insn ∈ byConstant ++ [call], insn.Lifted := by
    simp only [byConstant, List.cons_append, List.nil_append, List.forall_mem_cons]
    exact ⟨rfl, rfl, rfl, List.forall_mem_nil _⟩
  have hlive : (before byConstant).state.live.get? (.reg .esp) =
      some (.add (.sym .framePtr) (.const (-8))) := by decide +kernel
  obtain ⟨_, _, _, havoids, stmts, stmt, hbody, _, hmeaning⟩ :=
    context.call_keeps_frame_iff deps (show ∀ insn ∈ (block byConstant).instructions, insn.Lifted
      from hlifted) rfl (show call.kind = .call by decide +kernel) { declarations := {} }
      (show _ = before byConstant from rfl) (show _ = after byConstant from rfl)
  obtain ⟨called, hrun, hdenotes⟩ := hmeaning silent (.ofMachine entry)
  have hnothing : (before byConstant).emission.body = [] :=
    List.length_eq_zero_iff.mp (by decide +kernel)
  rw [hnothing] at hbody
  refine ⟨havoids (by decide +kernel) (by decide +kernel), stmts, stmt, called, hbody, hrun, ?_⟩
  have hesp : (entry.run silent.toWorld byConstant).symbol (.reg .esp) = 0xff8 := by decide +kernel
  rw [← hesp]
  exact hdenotes _ _ _ (.setVar (by decide +kernel) rfl _ _ _) (.reg .esp) _ (by decide +kernel)
    (by decide +kernel) hlive (by decide +kernel) (by decide +kernel) (by decide +kernel)

end MovedStack

end Uncompile
