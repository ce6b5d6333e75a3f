import Uncompile.Proofs.Emission.Evolution
import Uncompile.Proofs.Emission.StoreFlags

/-!
# Counted branches

A loop instruction counts `ecx` down and branches while it is not zero and the zero flag
is as asked for. The emitted test counts the variable down first and then evaluates the
formula of the flag, which may read the variable. So the test is that of the machine
exactly if counting down does not change the outcome of the formula. The variable holds
the counter, unless the frame manages the register.
-/

namespace Uncompile

/-! ## The counter in its variable -/

namespace BlockState

variable {managed : Symbol → Bool} {state : BlockState}

/-- A symbol that is neither managed nor pending is not bound. -/
theorem Framed.get?_eq_none (h : state.Framed managed) {symbol : Symbol}
    (hmanaged : managed symbol = false) (hpending : symbol ∉ state.pending) :
    state.live.get? symbol = none := by
  cases hvalue : state.live.get? symbol with
  | none => rfl
  | some value => exact absurd ((h.pending_iff symbol value hvalue).mpr hmanaged) hpending

/-- What evaluation reads comes from the expression or from a value of what it reads. -/
theorem references_eval {e : Expr} {read : Symbol} (hdirect : e.references read = false)
    (hbound : ∀ symbol, e.references symbol → valueReads state.live symbol read = false) :
    (state.eval e).references read = false := by
  by_contra hread
  have hwithin : e.Within (.ofSymbols (· ≠ read)) := by
    rw [Expr.within_ofSymbols_iff]
    rintro symbol hsymbol rfl
    exact Bool.false_ne_true (hdirect.symm.trans hsymbol)
  have heval : (state.eval e).Within (.ofSymbols (· ≠ read)) := by
    apply Expr.within_reduce
    apply Expr.within_bind hwithin
    intro symbol value hsymbol hvalue
    rw [Expr.within_ofSymbols_iff]
    rintro other hother rfl
    have hnot := hbound symbol hsymbol
    rw [valueReads, hvalue, Option.any_some] at hnot
    exact Bool.false_ne_true (hnot.symm.trans hother)
  exact Expr.within_ofSymbols_iff.mp heval read (Bool.eq_true_of_not_eq_false hread) rfl

/-- An assignment changes what another symbol stands for exactly if it changes its value. -/
theorem currentWord_setVar_iff {world : World} {target symbol : Symbol}
    (htarget : target.onProcessor) (hnamed : symbol.isNamed = false) (hne : symbol ≠ target)
    (c : CState) (w : Word) :
    state.currentWord world (c.setVar target.text w) symbol = state.currentWord world c symbol ↔
      ∀ value, state.live.get? symbol = some value →
        value.eval ((c.setVar target.text w).valuation world) = value.eval (c.valuation world) := by
  cases hvalue : state.live.get? symbol with
  | none =>
      have hsame := (CState.symbol_setVar htarget hnamed c w).trans (if_neg hne)
      simp only [currentWord, Valuation.bind_symbol_of_none hvalue, CState.symbol_valuation, hsame,
        reduceCtorEq, false_imp_iff, implies_true]
  | some value =>
      simp only [currentWord, Valuation.bind_symbol_of_some hvalue, Option.some.injEq, forall_eq']

variable {required : List Symbol} {force : Symbol → Expr → Bool}

/-- What a symbol stands for survives a commit, unless the frame manages it. -/
theorem currentWord_settled (h : state.Framed managed)
    (hacyclic : (state.commit required force).cyclic = false) {symbol : Symbol}
    (hnamed : symbol.isNamed = false) (hmanaged : managed symbol = false) (world : World)
    (c : CState) :
    (state.commit required force).state.currentWord world (state.settled world required force c)
        symbol =
      state.currentWord world c symbol := by
  apply bind_settled h.toWellFormed hacyclic hnamed
  intro value hvalue hpending
  exact absurd ((h.pending_iff symbol value hvalue).mpr hmanaged) hpending

/-- A commit does not write the variable of a symbol that the frame manages. -/
theorem symbol_settled_of_managed (h : state.Framed managed)
    (hacyclic : (state.commit required force).cyclic = false) {symbol : Symbol}
    (hnamed : symbol.isNamed = false) (hmanaged : managed symbol = true) (world : World)
    (c : CState) : (state.settled world required force c).symbol symbol = c.symbol symbol := by
  rw [symbol_settled h.toWellFormed hacyclic hnamed, if_neg]
  intro htarget
  have hunmanaged := h.unmanaged_of_pending (mem_pending_of_mem_targets htarget)
  exact Bool.false_ne_true (hunmanaged.symm.trans hmanaged)

/-- Flags that are bits are written out as bits. -/
theorem flagBits_settled (h : state.WellFormed)
    (hacyclic : (state.commit required force).cyclic = false) {world : World} {c : CState}
    (hbits : (c.valuation world).FlagBits)
    (hcurrent : ∀ f, state.currentWord world c (.flag f) = 0 ∨
      state.currentWord world c (.flag f) = 1) :
    ((state.settled world required force c).valuation world).FlagBits := by
  intro f
  have hsettled := symbol_settled h hacyclic (show (Symbol.flag f).isNamed = false from rfl) world c
  rw [CState.symbol_valuation, hsettled]
  split
  · exact hcurrent f
  · exact hbits f

/-- What is required is no longer bound after it has been committed, and neither is what
is forced out. -/
theorem Framed.get?_live_commit_eq_none (h : state.Framed managed) {symbol : Symbol}
    (hmanaged : managed symbol = false)
    (hwanted : symbol ∈ required ∨ ∀ value, force symbol value = true) :
    (state.commit required force).state.live.get? symbol = none := by
  apply (h.commit required force).get?_eq_none hmanaged
  rw [mem_pending_commit]
  rintro ⟨hpending, hnot⟩
  apply hnot
  apply mem_targets_of_mem_wanted
  obtain ⟨value, hvalue⟩ := h.bound symbol hpending
  refine List.mem_filter.mpr ⟨hpending, ?_⟩
  rw [hvalue, Option.any_some, Bool.or_eq_true, decide_eq_true_eq]
  exact hwanted.imp_right fun hforce => hforce value

/-- Nothing that stays bound reads a symbol that has been written out, unless the frame
manages it. -/
theorem Framed.valueReads_commit (h : state.Framed managed) {symbol target : Symbol}
    (hmanaged : managed symbol = false) (htarget : target ∈ state.targets required force) :
    valueReads (state.commit required force).state.live symbol target = false := by
  rw [valueReads, BlockState.get?_live_commit]
  split
  · rfl
  · rename_i hnot
    cases hvalue : state.live.get? symbol with
    | none => rfl
    | some value =>
        exact references_target_of_pending ((h.pending_iff symbol value hvalue).mpr hmanaged) hnot
          hvalue target htarget

end BlockState

/-! ## The emitted test -/

namespace BlockContext

variable {context : BlockContext} {insn : Instruction} {cc : Option Condition} {target : Address}

/-- The lowering in which a loop is tested: the counter is in its variable. -/
def counted (context : BlockContext) (l : Lowering) : Lowering :=
  context.commit context.required (fun symbol _ => symbol = .reg .ecx) l

/-- The test of a loop. -/
def loopTest (state : BlockState) : Option Condition → CExpr
  | some code => .binary .land (.preDec (.ofSymbol (.reg .ecx))) (.ofExpr (state.eval code.toExpr))
  | none => .preDec (.ofSymbol (.reg .ecx))

theorem lower_loop (context : BlockContext) (hkind : insn.kind = .loop cc)
    (htarget : context.scope.target? insn = some (.address target)) (rest : List Instruction)
    (l : Lowering) :
    (context.lower insn rest l).Follows context.block (context.counted l)
      (.ifGoto (loopTest (context.counted l).state cc) (context.labelFor target))
      (l.successors.filter (· ≠ target)) := by
  have hsuccessors : (context.counted l).successors = l.successors :=
    successors_commit context _ _ l
  rw [← hsuccessors]
  simp only [lower, hkind, loop, branch, htarget]
  refine ⟨rfl, ?_, rfl, rfl⟩
  cases cc <;> rfl

/-- The test counts down first and evaluates its formula in the state after that. -/
theorem eval?_loopTest (world : CWorld) (state : BlockState) (cc : Option Condition) (c : CState) :
    ∃ value, (loopTest state cc).eval? world c =
        some (value, c.setVar "ecx" (c.var "ecx" - 1)) ∧
      (value ≠ 0 ↔ c.var "ecx" - 1 ≠ 0 ∧ ∀ code ∈ cc, (state.eval code.toExpr).eval
        ((c.setVar "ecx" (c.var "ecx" - 1)).valuation world.toWorld) ≠ 0) := by
  have hcounter : (CExpr.preDec (.ofSymbol (.reg .ecx))).eval? world c =
      some (c.var "ecx" - 1, c.setVar "ecx" (c.var "ecx" - 1)) := rfl
  cases cc with
  | none => exact ⟨_, hcounter, by simp⟩
  | some code =>
      simp only [loopTest, CExpr.eval?, hcounter, CExpr.eval?_ofExpr, Option.bind_eq_bind,
        Option.bind_some, Option.mem_def, Option.some.injEq, forall_eq']
      by_cases hzero : c.var "ecx" - 1 = 0
      · -- the formula is not evaluated, and the counter has been written
        rw [if_pos ⟨trivial, hzero⟩]
        exact ⟨0, rfl, iff_of_false (fun h => h rfl) fun h => h.1 hzero⟩
      · rw [if_neg fun h => hzero h.2, if_neg fun h => BinOp.noConfusion h.1]
        refine ⟨_, rfl, ?_⟩
        rw [and_iff_right hzero, BinOp.value, BinOp.compute?, bne_iff_ne.mpr hzero, Bool.true_and,
          Option.getD_some, ← bne_iff_ne, ← bne_iff_ne]
        exact Bool.coe_iff_coe.mpr (BinOp.truth_bne_zero _)

variable {l : Lowering}

/-- The counter is in its variable. -/
theorem get?_counter_counted (h : l.state.Framed context.scope.isManaged)
    (hcounter : context.scope.isManaged (.reg .ecx) = false) :
    (context.counted l).state.live.get? (.reg .ecx) = none := by
  rw [counted, state_commit]
  exact h.get?_live_commit_eq_none hcounter (Or.inr fun _ => by simp)

/-- Neither what is required nor anything after a pending counter reads the variable of
the counter. -/
theorem valueReads_counted (context : BlockContext) {l : Lowering}
    (h : l.state.Framed context.scope.isManaged) {symbol : Symbol}
    (hmanaged : context.scope.isManaged symbol = false)
    (hsafe : symbol ∈ context.required ∨ .reg .ecx ∈ l.state.pending) :
    BlockState.valueReads (context.counted l).state.live symbol (.reg .ecx) = false := by
  rw [counted, state_commit]
  rcases hsafe with hrequired | hpending
  · rw [BlockState.valueReads, h.get?_live_commit_eq_none hmanaged (Or.inl hrequired),
      Option.any_none]
  · apply h.valueReads_commit hmanaged
    apply BlockState.mem_targets_of_mem_wanted
    obtain ⟨value, hvalue⟩ := h.bound _ hpending
    exact List.mem_filter.mpr ⟨hpending, by simp [hvalue]⟩

end BlockContext

/-! ## Testing in step with the machine -/

/-- A block state and a C state in which a loop can be tested. They give what the machine
holds in all symbols that the frame does not manage, with the counter in its variable if
it is one of them. -/
structure AtLoop (world : World) (managed : Symbol → Bool) (state : BlockState) (c : CState)
    (machine : MachineState) : Prop where
  framed : state.Framed managed
  form : LiveForm state.live
  current : ∀ symbol, symbol.isNamed = false → managed symbol = false →
    state.currentWord world c symbol = machine.symbol symbol
  bits : (c.valuation world).FlagBits
  unbound : managed (.reg .ecx) = false → state.live.get? (.reg .ecx) = none

/-- Getting ready for the test leads from a block state that gives what the machine holds
to one in which the loop can be tested. -/
theorem BlockContext.runs_counted (context : BlockContext) {l : Lowering} {world : CWorld}
    {c : CState} {machine : MachineState} (hframed : l.state.Framed context.scope.isManaged)
    (hform : LiveForm l.state.live)
    (hcurrent : ∀ symbol, symbol.isNamed = false → context.scope.isManaged symbol = false →
      l.state.currentWord world.toWorld c symbol = machine.symbol symbol)
    (hbits : (c.valuation world.toWorld).FlagBits) (hmachine : machine.FlagBits)
    (hcycles : (context.counted l).emission.cycles context.block =
      l.emission.cycles context.block) :
    ∃ c₁, l.Runs world (context.counted l) c c₁ ∧
      AtLoop world.toWorld context.scope.isManaged (context.counted l).state c₁ machine ∧
      (context.scope.isManaged (.reg .ecx) = true → c₁.var "ecx" = c.var "ecx") := by
  have hacyclic := acyclic_of_cycles hcycles
  have hunbound := get?_counter_counted hframed
  refine ⟨_, ⟨_, body_commit context _ _ l,
    BlockState.run?_commit hframed.toWellFormed world c⟩, ?_, ?_⟩
  · rw [counted, state_commit] at hunbound ⊢
    refine ⟨hframed.commit _ _, hform.commit _ _, ?_, ?_, hunbound⟩
    · intro symbol hnamed hmanaged
      rw [BlockState.currentWord_settled hframed hacyclic hnamed hmanaged]
      exact hcurrent symbol hnamed hmanaged
    · apply BlockState.flagBits_settled hframed.toWellFormed hacyclic hbits
      intro f
      rw [hcurrent (.flag f) rfl rfl]
      exact hmachine f
  · intro hmanaged
    have hnamed : (Symbol.reg .ecx).isNamed = false := rfl
    exact BlockState.symbol_settled_of_managed hframed hacyclic hnamed hmanaged world.toWorld c

/-- The conditions of loops read the zero flag and nothing else. -/
theorem Condition.eq_zero_of_references {code : Condition} (hcode : code = .z ∨ code = .nz)
    {read : Symbol} (hread : code.toExpr.references read) : read = .flag .z := by
  rcases hcode with rfl | rfl
  all_goals
    simp only [toExpr, Expr.flag, Expr.references, decide_eq_true_eq] at hread
    exact hread.symm

/-- A loop counts down and does nothing else. -/
theorem Instruction.Lifted.symbol_exec_loop {insn : Instruction} (hlifted : insn.Lifted)
    {cc : Option Condition} (hkind : insn.kind = .loop cc) (world : World)
    (machine : MachineState) (symbol : Symbol) :
    (machine.exec world insn.effect).symbol symbol =
      if symbol = .reg .ecx then machine.symbol (.reg .ecx) - 1 else machine.symbol symbol := by
  have heffect : insn.effect = [(.reg .ecx, Lift.offset (.reg .ecx) (-1))] := by
    rw [hlifted.effect_eq, opcode_of_loop hkind]
    rfl
  have hvalue : (Lift.offset (.reg .ecx) (-1)).eval (machine.valuation world) =
      machine.symbol (.reg .ecx) - 1 := by
    have hoffset : Lift.offset (.reg .ecx) (-1) = .binary .add (.reg .ecx) (.const (-1)) := by
      decide +kernel
    rw [hoffset, BitVec.sub_eq_add_neg]
    rfl
  have hexec : (machine.exec world insn.effect).symbol =
      Function.update machine.symbol (.reg .ecx) (machine.symbol (.reg .ecx) - 1) := by
    rw [heffect, ← hvalue]
    rfl
  rw [hexec, Function.update_apply]

namespace AtLoop

variable {world : World} {managed : Symbol → Bool} {state : BlockState} {c : CState}
  {machine : MachineState} {code : Condition} {symbol : Symbol}

theorem var_counter (h : AtLoop world managed state c machine)
    (hmanaged : managed (.reg .ecx) = false) : c.var "ecx" = machine.symbol (.reg .ecx) := by
  have hcounter := h.current (.reg .ecx) rfl hmanaged
  rw [BlockState.currentWord, Valuation.bind_symbol_of_none (h.unbound hmanaged)] at hcounter
  exact hcounter

/-- The formula of the condition has the outcome that the condition has on the machine. -/
theorem eval_condition (h : AtLoop world managed state c machine)
    (hflag : managed (.flag .z) = false) (hcode : code = .z ∨ code = .nz) :
    (state.eval code.toExpr).eval (c.valuation world) =
      code.toExpr.eval (machine.valuation world) := by
  rw [BlockState.eval_eval h.bits (h.form.regular_condition code)]
  apply Expr.eval_congr
  · intro read hread
    obtain rfl := Condition.eq_zero_of_references hcode hread
    exact h.current (.flag .z) rfl hflag
  · intro hreads
    rcases hcode with rfl | rfl
    · exact absurd hreads Bool.false_ne_true
    · exact absurd hreads Bool.false_ne_true
  · rfl

/-- Counting down does not change the formula of a flag that does not read the counter. -/
theorem eval_condition_setVar (h : AtLoop world managed state c machine)
    (hcode : code = .z ∨ code = .nz)
    (hreads : BlockState.valueReads state.live (.flag .z) (.reg .ecx) = false) (w : Word) :
    (state.eval code.toExpr).eval ((c.setVar "ecx" w).valuation world) =
      (state.eval code.toExpr).eval (c.valuation world) := by
  apply BlockState.eval_setVar (show (Symbol.reg .ecx).onProcessor from rfl)
  · apply h.framed.unnamed_eval
    intro read hread
    rw [Condition.eq_zero_of_references hcode hread]
    rfl
  · apply BlockState.references_eval
    · by_contra hread
      exact Symbol.noConfusion
        (Condition.eq_zero_of_references hcode (Bool.eq_true_of_not_eq_false hread))
    · intro symbol hsymbol
      rw [Condition.eq_zero_of_references hcode hsymbol]
      exact hreads

/-- After counting down the block state gives what the machine has after the loop, for the
symbols whose values have not changed. -/
theorem currentWord_iff (h : AtLoop world managed state c machine) {insn : Instruction}
    (hlifted : insn.Lifted) {cc : Option Condition} (hkind : insn.kind = .loop cc)
    (hnamed : symbol.isNamed = false) (hmanaged : managed symbol = false) :
    state.currentWord world (c.setVar "ecx" (c.var "ecx" - 1)) symbol =
        (machine.exec world insn.effect).symbol symbol ↔
      ∀ value, state.live.get? symbol = some value →
        value.eval ((c.setVar "ecx" (c.var "ecx" - 1)).valuation world) =
          value.eval (c.valuation world) := by
  have hprocessor : (Symbol.reg .ecx).onProcessor := rfl
  rw [hlifted.symbol_exec_loop hkind]
  by_cases hsymbol : symbol = .reg .ecx
  · subst hsymbol
    have hunbound := h.unbound hmanaged
    rw [if_pos rfl, ← h.var_counter hmanaged]
    constructor
    · intro _ value hvalue
      exact absurd (hunbound.symm.trans hvalue) (Option.some_ne_none value).symm
    · intro _
      rw [BlockState.currentWord, Valuation.bind_symbol_of_none hunbound]
      exact (CState.symbol_setVar hprocessor rfl c _).trans (if_pos rfl)
  · rw [if_neg hsymbol, ← h.current symbol hnamed hmanaged]
    exact BlockState.currentWord_setVar_iff hprocessor hnamed hsymbol c _

/-- Counting down changes no value that does not read the counter. -/
theorem eval_of_not_valueReads (h : AtLoop world managed state c machine)
    (hreads : BlockState.valueReads state.live symbol (.reg .ecx) = false) (w : Word) {value : Expr}
    (hvalue : state.live.get? symbol = some value) :
    value.eval ((c.setVar "ecx" w).valuation world) = value.eval (c.valuation world) := by
  apply BlockState.eval_setVar (show (Symbol.reg .ecx).onProcessor from rfl)
    (h.framed.unnamed symbol value hvalue)
  rwa [BlockState.valueReads, hvalue, Option.any_some] at hreads

end AtLoop

/-- A test that evaluates its conditions late has the outcome of one that does not exactly
if the conditions are not looked at or have not changed. -/
theorem late_test_iff {cc : Option Condition} {counter value : Word}
    {late early real : Condition → Word}
    (hvalue : value ≠ 0 ↔ counter ≠ 0 ∧ ∀ code ∈ cc, late code ≠ 0)
    (hearly : ∀ code ∈ cc, early code = real code) :
    (value ≠ 0 ↔ counter ≠ 0 ∧ ∀ code ∈ cc, real code ≠ 0) ↔
      counter = 0 ∨ ∀ code ∈ cc, (late code ≠ 0 ↔ early code ≠ 0) := by
  rw [hvalue, and_congr_right_iff, or_iff_not_imp_left]
  cases cc with
  | none => simp
  | some code =>
      simp only [Option.mem_def, Option.some.injEq, forall_eq'] at hearly ⊢
      rw [hearly]

namespace EmissionContext

variable (context : EmissionContext) (deps : Dependencies) (block : Block) (emission : Emission)

/-- A loop at any point of a block of lifted instructions, in a C state and a machine state
with the same symbols. The emitted test counts the variable down, which holds the counter
unless the frame manages it, and then evaluates the formula of the zero flag. So it branches
on the counter and the condition exactly if counting down keeps the outcome of the formula,
or the counter becomes zero. This is so if the value of the flag does not read the counter.
What symbols stand for is kept exactly if counting down keeps their value, which holds if
it does not read the counter. Nothing reads the counter where its variable had to be written
before the test, and what is required never does. -/
theorem loop_branches_iff (world : CWorld) {first rest : List Instruction} {insn : Instruction}
    {cc : Option Condition} {target : Address} {before after : Lowering}
    (hfirst : ∀ insn ∈ first, insn.Lifted) (hlifted : insn.Lifted) (hkind : insn.kind = .loop cc)
    (htarget : context.scope.target? insn = some (.address target))
    (hbefore : (context.blockContext deps block).lowerUpTo first (insn :: rest)
      (context.blockStart block emission) = before)
    (hafter : (context.blockContext deps block).lower insn rest before = after)
    (hcycles : after.emission.cycles block.address = before.emission.cycles block.address)
    {c : CState} {machine : MachineState}
    (hcurrent : ∀ symbol, symbol.isNamed = false → context.scope.isManaged symbol = false →
      before.state.currentWord world.toWorld c symbol = machine.symbol symbol)
    (hbits : (c.valuation world.toWorld).FlagBits) (hmachine : machine.FlagBits) :
    ∃ stmts test value c₁ c₂,
      after.emission.body =
        before.emission.body ++ stmts ++ [.ifGoto test (context.labelFor target)] ∧
      Stmt.run? world stmts c = some (c₁, .next) ∧
      test.eval? world c₁ = some (value, c₂) ∧
      c₂ = c₁.setVar "ecx" (c₁.var "ecx" - 1) ∧
      c₁.var "ecx" =
        (if context.scope.isManaged (.reg .ecx) then c.var "ecx" else machine.symbol (.reg .ecx)) ∧
      ((value ≠ 0 ↔ c₁.var "ecx" - 1 ≠ 0 ∧
          ∀ code ∈ cc, code.toExpr.eval (machine.valuation world.toWorld) ≠ 0) ↔
        c₁.var "ecx" - 1 = 0 ∨ ∀ code ∈ cc,
          ((after.state.eval code.toExpr).eval (c₂.valuation world.toWorld) ≠ 0 ↔
            (after.state.eval code.toExpr).eval (c₁.valuation world.toWorld) ≠ 0)) ∧
      (cc = none ∨ BlockState.valueReads after.state.live (.flag .z) (.reg .ecx) = false →
        (value ≠ 0 ↔ c₁.var "ecx" - 1 ≠ 0 ∧
          ∀ code ∈ cc, code.toExpr.eval (machine.valuation world.toWorld) ≠ 0)) ∧
      ∀ symbol, symbol.isNamed = false → context.scope.isManaged symbol = false →
        (after.state.currentWord world.toWorld c₂ symbol =
            (machine.exec world.toWorld insn.effect).symbol symbol ↔
          ∀ value, after.state.live.get? symbol = some value →
            value.eval (c₂.valuation world.toWorld) = value.eval (c₁.valuation world.toWorld)) ∧
        (BlockState.valueReads after.state.live symbol (.reg .ecx) = false →
          after.state.currentWord world.toWorld c₂ symbol =
            (machine.exec world.toWorld insn.effect).symbol symbol) ∧
        (symbol ∈ deps.writes block.address ∨ .reg .ecx ∈ before.state.pending →
          BlockState.valueReads after.state.live symbol (.reg .ecx) = false) := by
  let inner := context.blockContext deps block
  have hframed : before.state.Framed context.scope.isManaged :=
    hbefore ▸ context.framed_lowerUpTo deps block emission hfirst (insn :: rest)
  have hform : LiveForm before.state.live :=
    hbefore ▸ context.liveForm_lowerUpTo deps block emission hfirst (insn :: rest)
  have hfollows := inner.lower_loop hkind htarget rest before
  rw [hafter] at hfollows
  obtain ⟨c₁, ⟨stmts, hbody, hrun⟩, hloop, hmanaged⟩ := inner.runs_counted hframed hform hcurrent
    hbits hmachine (hfollows.cycles.symm.trans hcycles)
  rw [← hfollows.state] at hloop
  obtain ⟨value, heval, hvalue⟩ := BlockContext.eval?_loopTest world after.state cc c₁
  have hcode : ∀ code ∈ cc, code = .z ∨ code = .nz := by
    rintro code hcode
    cases hcode
    exact Instruction.condition_of_loop hkind
  have hexact := late_test_iff hvalue fun code hmem => hloop.eval_condition rfl (hcode code hmem)
  refine ⟨stmts, BlockContext.loopTest after.state cc, value, c₁, _, ?_, hrun, heval, rfl, ?_,
    hexact, ?_, ?_⟩
  · rw [hfollows.body, hbody, hfollows.state]
    rfl
  · split
    · rename_i hframe
      exact hmanaged hframe
    · rename_i hframe
      exact hloop.var_counter (Bool.eq_false_of_not_eq_true hframe)
  · intro hsafe
    apply hexact.mpr
    right
    intro code hmem
    have hreads := hsafe.resolve_left fun hnone => Option.some_ne_none code (hmem.symm.trans hnone)
    rw [hloop.eval_condition_setVar (hcode code hmem) hreads]
  · intro symbol hnamed hmanaged
    have hmeaning := hloop.currentWord_iff hlifted hkind hnamed hmanaged
    refine ⟨hmeaning, ?_, ?_⟩
    · intro hreads
      apply hmeaning.mpr
      intro bound hbound
      exact hloop.eval_of_not_valueReads hreads _ hbound
    · intro hsafe
      rw [hfollows.state]
      exact inner.valueReads_counted hframed hmanaged hsafe

end EmissionContext

/-! ### A counter that is compared, and one that is reduced -/

namespace Countdown

open CWorld (silent)

def block : Block := { address := 16, instructions := [], successors := [16, 24] }

def context : EmissionContext :=
  { scope := { disassembly := Program.disassembler {}, entry := 16, frameRegister := .ebp },
    config := {} }

def deps : Dependencies := { entry := 16, blocks := [] }

def inner : BlockContext := context.blockContext deps block

def start : Lowering := context.blockStart block { declarations := {} }

def machine : MachineState :=
  { symbol := fun symbol => if symbol = .reg .ecx then 3 else if symbol = .reg .eax then 1 else 0
    memory := fun _ => 0 }

def compare : Instruction := .ofMnemonic 16 "cmp" [.ofReg .ecx, .imm 3]

def reduce : Instruction := .ofMnemonic 16 "sub" [.ofReg .ecx, .ofReg .eax]

def branch : Instruction := .ofMnemonic 19 "loopnz" [.imm 16]

/-- The counter has been reduced to two, which is not zero and is one after counting down:
the branch is taken. -/
theorem loop_branches_reduced :
    ∃ c stmts test value c₁ c₂,
      (inner.lower branch [] (inner.lowerUpTo [reduce] [branch] start)).emission.body =
        stmts ++ [.ifGoto test "loc_10"] ∧
      Stmt.run? silent stmts c = some (c₁, .next) ∧
      test.eval? silent c₁ = some (value, c₂) ∧ c₂.var "ecx" = 1 ∧ value ≠ 0 := by
  have hlifted : reduce.Lifted := rfl
  have hplain : reduce.kind = .plain := by decide +kernel
  have hentry : Simulates silent.toWorld inner.scope.isManaged start.state (.ofMachine machine)
      machine :=
    FrameScope.simulates_blockFrame (.ofMachine (by decide +kernel)) fun _ => Or.inl rfl
  obtain ⟨c, -, hsimulates⟩ := BlockContext.simulates_plain hlifted hplain
    (by decide +kernel) (show inner.SteadyWrites reduce start by decide +kernel) hentry
    (fun _ => Or.inl rfl) (by decide +kernel)
  have hlowered : inner.plain reduce start = inner.lowerUpTo [reduce] [branch] start := by
    rw [BlockContext.lowerUpTo, BlockContext.lowerUpTo, BlockContext.lower, hplain]
  have hmachine : (machine.exec silent.toWorld reduce.effect).FlagBits := by
    intro f
    cases f <;> decide +kernel
  have hpending : .reg .ecx ∈ (inner.lowerUpTo [reduce] [branch] start).state.pending := by
    decide +kernel
  rw [hlowered] at hsimulates
  obtain ⟨stmts, test, value, c₁, c₂, hbody, hrun, heval, rfl, hvar, -, htest, hsymbols⟩ :=
    context.loop_branches_iff deps block { declarations := {} } silent
      (show ∀ insn ∈ [reduce], insn.Lifted by simpa using hlifted) (show branch.Lifted from rfl)
      (show _ = Kind.loop (some .nz) by decide +kernel) rfl
      (show inner.lowerUpTo [reduce] [branch] start = _ from rfl) rfl (by decide +kernel)
      (fun symbol hnamed _ => hsimulates.current symbol hnamed) hsimulates.bits hmachine
  have hempty : (inner.lowerUpTo [reduce] [branch] start).emission.body = [] := by
    decide +kernel
  have hlabel : context.labelFor (BitVec.ofInt 64 16).toNat = "loc_10" := by decide +kernel
  have hcounter : c₁.var "ecx" = 2 :=
    hvar.trans (show (machine.exec silent.toWorld reduce.effect).symbol (.reg .ecx) = 2 by
      decide +kernel)
  refine ⟨c, stmts, test, value, c₁, _, ?_, hrun, heval, ?_, ?_⟩
  · calc
      (inner.lower branch [] (inner.lowerUpTo [reduce] [branch] start)).emission.body
          = (inner.lowerUpTo [reduce] [branch] start).emission.body ++ stmts ++
              [Stmt.ifGoto test (context.labelFor (BitVec.ofInt 64 16).toNat)] := hbody
      _ = stmts ++ [.ifGoto test "loc_10"] := by rw [hempty, hlabel, List.nil_append]
  · rw [hcounter]
    rfl
  · have hreads := (hsymbols (.flag .z) rfl rfl).2.2 (Or.inr hpending)
    apply (htest (Or.inr hreads)).mpr
    refine ⟨by rw [hcounter]; decide, ?_⟩
    intro code hcode
    cases hcode
    decide +kernel

/-- With three in the counter the comparison sets the zero flag, so the loop ends. The
emitted test compares the counter after it has been counted down, and branches. -/
theorem compared_counter_branches :
    (Stmt.run? silent
        (inner.lower branch [] (inner.lowerUpTo [compare] [branch] start)).emission.body
        (.ofMachine machine)).map Prod.snd = some (.goto "loc_10") ∧
      Condition.nz.toExpr.eval
        ((machine.exec silent.toWorld compare.effect).valuation silent.toWorld) = 0 := by
  decide +kernel

end Countdown

end Uncompile
