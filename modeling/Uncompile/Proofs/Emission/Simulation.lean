import Uncompile.Emission.Body
import Uncompile.Proofs.Emission.Tracking

/-!
# Simulation of plain instructions

Lowering plain instructions emits statements that keep the C state in step with
the machine: memory is the same all along, and the block state tracks what the
machine holds in its symbols. One instruction commits what its stores could
change, stores, and takes over its other writes; a sequence of instructions is
simulated step by step. A block starts in step if its C state is like the
machine's and the frame is right.
-/

namespace Uncompile

/-- How often a circle of assignments has been reported for a block. -/
def Emission.cycles (emission : Emission) (block : Address) : Nat :=
  emission.diagnostics.count (.cyclicCommit block)

/-- The statements emitted between two points of a lowering take one C state to
another. -/
def Lowering.Runs (world : CWorld) (l l' : Lowering) (c c' : CState) : Prop :=
  ∃ stmts, l'.emission.body = l.emission.body ++ stmts ∧
    Stmt.run? world stmts c = some (c', .next)

theorem Lowering.Runs.refl (world : CWorld) (l : Lowering) (c : CState) : l.Runs world l c c :=
  ⟨[], (List.append_nil _).symm, rfl⟩

theorem Lowering.Runs.trans {world : CWorld} {l l' l'' : Lowering} {c c' c'' : CState}
    (hfirst : l.Runs world l' c c') (hsecond : l'.Runs world l'' c' c'') :
    l.Runs world l'' c c'' := by
  obtain ⟨first, hbody, hrun⟩ := hfirst
  obtain ⟨second, hbody', hrun'⟩ := hsecond
  refine ⟨first ++ second, by rw [hbody', hbody, List.append_assoc], ?_⟩
  rw [Stmt.run?_append_of_next hrun, hrun']

/-- The C state is in step with the machine. -/
structure Simulates (world : World) (managed : Symbol → Bool) (state : BlockState) (c : CState)
    (machine : MachineState) : Prop extends Tracks world managed state c machine where
  memory : c.memory = machine.memory

namespace BlockContext

variable (context : BlockContext) (required : List Symbol) (force : Symbol → Expr → Bool)
  (l : Lowering)

/-! ## Commits -/

@[simp]
theorem state_commit :
    (context.commit required force l).state = (l.state.commit required force).state := by
  unfold commit
  dsimp only
  split <;> rfl

@[simp]
theorem body_commit :
    (context.commit required force l).emission.body =
      l.emission.body ++ (l.state.commit required force).stmts := by
  unfold commit
  dsimp only
  split <;> rfl

@[simp]
theorem successors_commit : (context.commit required force l).successors = l.successors := by
  unfold commit
  dsimp only
  split <;> rfl

theorem cycles_commit :
    (context.commit required force l).emission.cycles context.block =
      l.emission.cycles context.block +
        if (l.state.commit required force).cyclic then 1 else 0 := by
  unfold commit
  dsimp only
  split
  · simp [Emission.cycles, Lowering.report, Lowering.emitAll]
  · rfl

variable {context required force l} {world : CWorld} {c : CState} {machine : MachineState}

/-- A commit that reports no circle has none. -/
theorem acyclic_of_cycles
    (hcycles : (context.commit required force l).emission.cycles context.block =
      l.emission.cycles context.block) : (l.state.commit required force).cyclic = false := by
  rw [cycles_commit] at hcycles
  cases hcyclic : (l.state.commit required force).cyclic with
  | false => rfl
  | true =>
      rw [hcyclic, if_pos rfl] at hcycles
      exact absurd hcycles (Nat.succ_ne_self _)

theorem simulates_commit
    (h : Simulates world.toWorld context.scope.isManaged l.state c machine)
    (hmachine : machine.FlagBits)
    (hcycles : (context.commit required force l).emission.cycles context.block =
      l.emission.cycles context.block) :
    ∃ c', l.Runs world (context.commit required force l) c c' ∧
      Simulates world.toWorld context.scope.isManaged (context.commit required force l).state
        c' machine := by
  have hacyclic := acyclic_of_cycles hcycles
  refine ⟨l.state.settled world.toWorld required force c,
    ⟨_, body_commit context required force l, BlockState.run?_commit h.wellFormed world c⟩, ?_⟩
  rw [state_commit]
  exact ⟨h.toTracks.commit hmachine hacyclic, by rw [BlockState.memory_settled, h.memory]⟩

/-! ## Plain instructions -/

/-- The lowering in which the values of an effect are computed: before memory is
written, what reads it has been written out. -/
def ready (context : BlockContext) (insn : Instruction) (l : Lowering) : Lowering :=
  if insn.writesMemory then context.commit context.required ifReadsMemory l else l

/-- The stores of an effect as statements. -/
def storeStmts (l : Lowering) (effect : Effect) : List Stmt :=
  effect.stores.map fun write => .assign (l.eval write.1.toExpr) (l.eval write.2)

theorem body_plain (context : BlockContext) (insn : Instruction) (l : Lowering) :
    (context.plain insn l).emission.body =
      (context.ready insn l).emission.body ++ storeStmts (context.ready insn l) insn.effect := by
  unfold plain ready storeStmts Lowering.emitAll
  dsimp only
  congr 1
  -- one entry of the effect at a time
  induction insn.effect with
  | nil => rfl
  | cons write rest ih =>
      obtain ⟨location, value⟩ := write
      cases location with
      | sym symbol => exact ih
      | mem ptr size => exact congrArg _ ih
      | port p size => exact congrArg _ ih

theorem cycles_plain (context : BlockContext) (insn : Instruction) (l : Lowering)
    (block : Address) :
    (context.plain insn l).emission.cycles block = (context.ready insn l).emission.cycles block :=
  rfl

/-- Getting ready keeps in step with the machine, and leaves no value that a
store could change. -/
theorem simulates_ready {insn : Instruction}
    (h : Simulates world.toWorld context.scope.isManaged l.state c machine)
    (hmachine : machine.FlagBits)
    (hcycles : (context.ready insn l).emission.cycles context.block =
      l.emission.cycles context.block) :
    ∃ c', l.Runs world (context.ready insn l) c c' ∧
      Simulates world.toWorld context.scope.isManaged (context.ready insn l).state c' machine ∧
      (insn.writesMemory → ∀ symbol value,
        (context.ready insn l).state.live.get? symbol = some value →
          value.readsMemory = false) := by
  unfold ready at hcycles ⊢
  split
  · rename_i hwrites
    rw [if_pos hwrites] at hcycles
    obtain ⟨c', hruns, hsimulates⟩ := simulates_commit h hmachine hcycles
    refine ⟨c', hruns, hsimulates, ?_⟩
    intro _ symbol value hvalue
    rw [state_commit] at hvalue
    exact h.toTracks.memoryless_commit hvalue
  · rename_i hwrites
    exact ⟨c, Lowering.Runs.refl world l c, h, fun h' => absurd h' hwrites⟩

theorem writesMemory_of_stores {insn : Instruction} {write : Location × Expr}
    (hwrite : write ∈ insn.effect.stores) : insn.writesMemory := by
  obtain ⟨hmem, hlocation⟩ := List.mem_filter.mp hwrite
  exact List.any_eq_true.mpr ⟨write, hmem, hlocation⟩

/-- The store of an effect does to memory what the machine does. It changes no
variable and, as nothing that is tracked reads memory, no tracked value. -/
theorem run?_storeStmts {insn : Instruction} (hlifted : insn.Lifted) (hplain : insn.kind = .plain)
    (h : Simulates world.toWorld context.scope.isManaged l.state c machine)
    (hlive : insn.writesMemory → ∀ symbol value, l.state.live.get? symbol = some value →
      value.readsMemory = false) :
    ∃ c', Stmt.run? world (storeStmts l insn.effect) c = some (c', .next) ∧
      Tracks world.toWorld context.scope.isManaged l.state c' machine ∧
      c'.memory = (machine.exec world.toWorld insn.effect).memory ∧
      c'.symbol = c.symbol ∧ (insn.writesMemory = false → c' = c) := by
  rw [MachineState.memory_exec]
  have hlength := hlifted.length_stores
  match hstores : insn.effect.stores with
  | [] => exact ⟨c, by rw [storeStmts, hstores]; rfl, h.toTracks, h.memory, rfl, fun _ => rfl⟩
  | [write] =>
      have hmem : write ∈ insn.effect.stores := hstores ▸ List.mem_singleton_self write
      have hform := hlifted.writeForm (Instruction.opcode_ne_portOut_of_plain hplain) write
        (List.mem_of_mem_filter hmem)
      cases hform with
      | symbol hsymbol hoperands hform =>
          exact absurd (List.mem_filter.mp hmem).2 (by simp [Location.asSymbol?])
      | @memory ptr value size hptr hvalue =>
          have haddress := h.eval_eq h.memory (Expr.isNamed_of_operands hptr.operands)
            (h.liveForm.regular_bind hptr.operands hptr.regular)
          have hword := h.eval_eq h.memory (Expr.isNamed_of_operands hvalue.operands)
            (h.liveForm.regular_bind hvalue.operands hvalue.regular)
          have hwrites : insn.writesMemory := writesMemory_of_stores hmem
          refine ⟨c.store (ptr.eval (machine.valuation world.toWorld))
            (value.eval (machine.valuation world.toWorld)) size, ?_,
            h.toTracks.store (hlive hwrites) _ _ _, ?_, CState.symbol_store c _ _ _, ?_⟩
          · rw [← haddress, ← hword, storeStmts, hstores]
            exact Stmt.run?_singleton (Stmt.exec?_assign_mem world c _ _ size)
          · simp only [CState.store, h.memory]
            rfl
          · exact fun hnot => Bool.noConfusion (hwrites.symm.trans hnot)
  | _ :: _ :: _ =>
      rw [hstores] at hlength
      simp at hlength

end BlockContext

/-- An instruction that writes memory assigns no symbol a value that reads it. -/
def Instruction.ReadsOrStores (insn : Instruction) : Prop :=
  insn.writesMemory → ∀ write ∈ insn.effect, write.1.asSymbol?.isSome →
    write.2.readsMemory = false

instance (insn : Instruction) : Decidable insn.ReadsOrStores :=
  inferInstanceAs (Decidable (insn.writesMemory → ∀ write ∈ insn.effect, _))

namespace BlockContext

variable {context : BlockContext} {l : Lowering} {world : CWorld} {c : CState}
  {machine : MachineState}

/-- What an instruction assigns to the registers that the frame manages is
steady. -/
def SteadyWrites (context : BlockContext) (insn : Instruction) (l : Lowering) : Prop :=
  ∀ write ∈ insn.effect, ∀ symbol ∈ write.1.asSymbol?, context.scope.isManaged symbol →
    ((context.ready insn l).state.eval write.2).Steady context.scope.isManaged

instance (context : BlockContext) (insn : Instruction) (l : Lowering) :
    Decidable (context.SteadyWrites insn l) :=
  inferInstanceAs (Decidable (∀ write ∈ insn.effect, ∀ symbol ∈ write.1.asSymbol?, _))

/-- One plain instruction keeps in step with the machine. -/
theorem simulates_plain {insn : Instruction} (hlifted : insn.Lifted) (hplain : insn.kind = .plain)
    (hreads : insn.ReadsOrStores) (hsteady : context.SteadyWrites insn l)
    (h : Simulates world.toWorld context.scope.isManaged l.state c machine)
    (hmachine : machine.FlagBits)
    (hcycles : (context.plain insn l).emission.cycles context.block =
      l.emission.cycles context.block) :
    ∃ c', l.Runs world (context.plain insn l) c c' ∧
      Simulates world.toWorld context.scope.isManaged (context.plain insn l).state c'
        (machine.exec world.toWorld insn.effect) := by
  rw [cycles_plain] at hcycles
  obtain ⟨c₁, hruns, hready, hlive⟩ := simulates_ready h hmachine hcycles
  obtain ⟨c₂, hstores, htracks, hmemory, hsymbol, hsame⟩ :=
    run?_storeStmts hlifted hplain hready hlive
  refine ⟨c₂, hruns.trans ⟨_, body_plain context insn l, hstores⟩, ?_, hmemory⟩
  apply htracks.takeAll
  intro symbol value hmem
  have hform := hlifted.writeForm (Instruction.opcode_ne_portOut_of_plain hplain) _ hmem
  cases hform with
  | symbol hprocessor hoperands hform =>
      have hunnamed := Expr.isNamed_of_operands hoperands
      refine ⟨hprocessor, hready.liveForm.valueForm_eval hoperands hform,
        hready.framed.unnamed_eval hunnamed, hsteady _ hmem symbol rfl, ?_⟩
      calc
        ((context.ready insn l).state.eval value).eval (c₂.valuation world.toWorld)
            = ((context.ready insn l).state.eval value).eval (c₁.valuation world.toWorld) := by
          -- the value was computed before the store, and the store does not change it
          cases hwrites : insn.writesMemory with
          | false => rw [hsame hwrites]
          | true =>
              apply Expr.eval_congr
              · intro read _
                exact congrFun hsymbol read
              · intro hmemory
                rw [Tracks.readsMemory_eval (hlive hwrites) (hreads hwrites _ hmem rfl)] at hmemory
                exact absurd hmemory Bool.false_ne_true
              · rfl
        _ = value.eval (machine.valuation world.toWorld) :=
          hready.eval_eq hready.memory hunnamed
            (hready.liveForm.regular_bind hoperands hform.regular)

/-! ## Sequences of plain instructions -/

/-- Everything assigned along the way to the registers that the frame manages is
steady. -/
def SteadyThroughout (context : BlockContext) : List Instruction → Lowering → Prop
  | [], _ => True
  | insn :: rest, l =>
    context.SteadyWrites insn l ∧ context.SteadyThroughout rest (context.plain insn l)

instance decidableSteadyThroughout (context : BlockContext) :
    ∀ (insns : List Instruction) (l : Lowering), Decidable (context.SteadyThroughout insns l)
  | [], _ => isTrue trivial
  | insn :: rest, l =>
    have := decidableSteadyThroughout context rest (context.plain insn l)
    inferInstanceAs (Decidable (context.SteadyWrites insn l ∧
      context.SteadyThroughout rest (context.plain insn l)))

end BlockContext

/-! ## The start of a block -/

/-- A C state and a machine state with the same memory and symbols, in which the
registers that a frame binds have their frame-relative values. -/
structure AtEntry (world : World) (frame : Binding) (c : CState) (machine : MachineState) :
    Prop where
  memory : c.memory = machine.memory
  symbol : ∀ symbol, symbol.isNamed = false → c.symbol symbol = machine.symbol symbol
  frame : ∀ symbol value, frame.get? symbol = some value →
    machine.symbol symbol = value.eval (machine.valuation world)

/-- The C state with the values of a machine in its variables. -/
def CState.ofMachine (machine : MachineState) : CState :=
  { var := fun name => machine.symbol (.ofName name)
    memory := machine.memory
    frame := machine.symbol .framePtr }

theorem CState.symbol_ofMachine (machine : MachineState) {symbol : Symbol}
    (hnamed : symbol.isNamed = false) :
    (ofMachine machine).symbol symbol = machine.symbol symbol := by
  have hname := congrArg machine.symbol (Symbol.ofName_text hnamed)
  cases symbol with
  | framePtr => rfl
  | _ => exact hname

/-- Every machine state in which a frame holds can be entered. -/
theorem AtEntry.ofMachine {world : World} {frame : Binding} {machine : MachineState}
    (hframe : ∀ entry ∈ frame.entries,
      machine.symbol entry.1 = entry.2.eval (machine.valuation world)) :
    AtEntry world frame (.ofMachine machine) machine where
  memory := rfl
  symbol _ hnamed := CState.symbol_ofMachine machine hnamed
  frame _ _ hvalue := hframe _ (SortedMap.mem_of_get? hvalue)

/-- An address in the frame mentions only the frame pointer. -/
theorem Expr.references_of_frameOffset {e : Expr} {offset : Int}
    (hoffset : e.frameOffset? = some offset) {read : Symbol} (hread : e.references read) :
    read = .framePtr := by
  rcases Expr.frameOffset?_eq_some hoffset with ⟨rfl, rfl⟩ | rfl | rfl | ⟨k, rfl, rfl⟩ <;>
    simpa [Expr.references, eq_comm] using hread

theorem Expr.readsMemory_of_frameOffset {e : Expr} {offset : Int}
    (hoffset : e.frameOffset? = some offset) : e.readsMemory = false := by
  rcases Expr.frameOffset?_eq_some hoffset with ⟨rfl, rfl⟩ | rfl | rfl | ⟨k, rfl, rfl⟩ <;> rfl

theorem Expr.regular_of_frameOffset {e : Expr} {offset : Int}
    (hoffset : e.frameOffset? = some offset) : e.Regular ∧ e.equalityFree := by
  rcases Expr.frameOffset?_eq_some hoffset with ⟨rfl, rfl⟩ | rfl | rfl | ⟨k, rfl, rfl⟩ <;>
    simp [Expr.Regular, Expr.equalityFree, BinOp.isEquality, BinOp.isLogical]

namespace FrameScope

variable {scope : FrameScope} {block : Address} {symbol : Symbol} {value : Expr}

theorem onProcessor_of_isManaged (hmanaged : scope.isManaged symbol) : symbol.onProcessor := by
  cases symbol <;> simp only [isManaged, Bool.false_eq_true] at hmanaged
  rfl

/-- The frame of a block binds managed registers to addresses in the frame. -/
theorem blockFrame_spec (hvalue : (scope.blockFrame block).get? symbol = some value) :
    scope.isManaged symbol ∧ ∃ offset, value.frameOffset? = some offset := by
  unfold blockFrame at hvalue
  split at hvalue
  · have hkeep := (List.mem_filter.mp (SortedMap.mem_of_get? hvalue)).2
    simpa [Option.isSome_iff_exists] using hkeep
  · simp at hvalue

/-- At the start of a block nothing is pending, and only managed registers are
bound. -/
theorem framed_blockFrame (scope : FrameScope) (block : Address) :
    BlockState.Framed scope.isManaged { live := scope.blockFrame block } where
  nodup := List.nodup_nil
  bound _ h := absurd h List.not_mem_nil
  processor _ _ hvalue := onProcessor_of_isManaged (blockFrame_spec hvalue).1
  unnamed symbol value hvalue read hread := by
    obtain ⟨_, offset, hoffset⟩ := blockFrame_spec hvalue
    rw [Expr.references_of_frameOffset hoffset hread]
    rfl
  pending_iff symbol value hvalue := by
    have hmanaged := (blockFrame_spec hvalue).1
    simp [hmanaged]

theorem steady_blockFrame (hvalue : (scope.blockFrame block).get? symbol = some value) :
    value.Steady scope.isManaged := by
  obtain ⟨_, offset, hoffset⟩ := blockFrame_spec hvalue
  refine ⟨Expr.readsMemory_of_frameOffset hoffset, ?_⟩
  intro read hread hprocessor
  rw [Expr.references_of_frameOffset hoffset hread] at hprocessor
  exact absurd hprocessor Bool.false_ne_true

/-- Addresses in the frame have the form of a register's value. -/
theorem liveForm_blockFrame (scope : FrameScope) (block : Address) :
    LiveForm (scope.blockFrame block) where
  processor _ _ hvalue := onProcessor_of_isManaged (blockFrame_spec hvalue).1
  form symbol value hvalue := by
    obtain ⟨hmanaged, offset, hoffset⟩ := blockFrame_spec hvalue
    obtain ⟨hregular, hfree⟩ := Expr.regular_of_frameOffset hoffset
    have hflag : ∀ f, symbol ≠ .flag f := by
      rintro f rfl
      exact Bool.false_ne_true hmanaged
    exact ⟨hregular, fun _ => hfree, fun f h => absurd h (hflag f), fun h => absurd h (hflag .s)⟩

/-- At the start of a block its frame tracks the machine. -/
theorem simulates_blockFrame {world : World} {c : CState} {machine : MachineState}
    (hentry : AtEntry world (scope.blockFrame block) c machine) (hbits : machine.FlagBits) :
    Simulates world scope.isManaged { live := scope.blockFrame block } c machine where
  current symbol hnamed := by
    cases hvalue : (scope.blockFrame block).get? symbol with
    | none => exact (Valuation.bind_symbol_of_none hvalue).trans (hentry.symbol symbol hnamed)
    | some value =>
        obtain ⟨_, offset, hoffset⟩ := blockFrame_spec hvalue
        rw [Valuation.bind_symbol_of_some hvalue, hentry.frame symbol value hvalue,
          Expr.eval_of_frameOffset hoffset, Expr.eval_of_frameOffset hoffset]
        exact congrArg (· + toWord offset) (hentry.symbol .framePtr rfl)
  bits f := by
    rw [CState.symbol_valuation, hentry.symbol (.flag f) rfl]
    exact hbits f
  wellFormed := (scope.framed_blockFrame block).toWellFormed
  form := (scope.liveForm_blockFrame block).form
  pending_iff := (scope.framed_blockFrame block).pending_iff
  steady _ _ hvalue _ := steady_blockFrame hvalue
  memory := hentry.memory

end FrameScope

end Uncompile
