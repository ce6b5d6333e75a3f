import Uncompile.Proofs.Emission.StraightBlock

/-!
# How block states change

Whatever the instruction, lowering it changes the block state by commits, by
forgetting symbols and by taking over values that the instruction assigns. What
these three keep holds at every point of a block: symbols that the frame manages
are never pending, all others that are bound are, and bound values have the forms of
lifted ones.
-/

namespace Uncompile

namespace BlockState

/-- A block state that comes from another by commits, by forgetting symbols and by
taking over writes of an effect. Written values are evaluated in states on the
way. -/
inductive Evolves (managed : Symbol → Bool) (effect : Effect) (start : BlockState) :
    BlockState → Prop
  | refl : Evolves managed effect start start
  | commit {state : BlockState} (h : Evolves managed effect start state) (required : List Symbol)
      (force : Symbol → Expr → Bool) :
      Evolves managed effect start (state.commit required force).state
  | discard {state : BlockState} (h : Evolves managed effect start state) (symbol : Symbol) :
      Evolves managed effect start (state.discard symbol)
  | update {state read : BlockState} (h : Evolves managed effect start state)
      (hread : Evolves managed effect start read) {symbol : Symbol} {value : Expr}
      (hwrite : (.sym symbol, value) ∈ effect) :
      Evolves managed effect start (state.update symbol (read.eval value) (managed symbol))

namespace Evolves

variable {managed : Symbol → Bool} {effect : Effect} {start state read : BlockState}

theorem discardAll (h : Evolves managed effect start state) (symbols : List Symbol) :
    Evolves managed effect start (symbols.foldl BlockState.discard state) := by
  induction symbols generalizing state with
  | nil => exact h
  | cons symbol rest ih => exact ih (h.discard symbol)

/-- Values evaluated in one state are taken over one after the other. -/
theorem updateAll (h : Evolves managed effect start state)
    (hread : Evolves managed effect start read) (isManaged : Symbol → Bool)
    {updates : List (Symbol × Expr)}
    (hupdates : ∀ entry ∈ updates, isManaged entry.1 = managed entry.1 ∧
      ∃ value, (.sym entry.1, value) ∈ effect ∧ entry.2 = read.eval value) :
    Evolves managed effect start
      (updates.foldl (fun state entry => state.update entry.1 entry.2 (isManaged entry.1))
        state) := by
  induction updates generalizing state with
  | nil => exact h
  | cons entry rest ih =>
      obtain ⟨⟨hmanaged, value, hwrite, hvalue⟩, hrest⟩ := List.forall_mem_cons.mp hupdates
      rw [List.foldl_cons, hmanaged, hvalue]
      exact ih (h.update hread hwrite) hrest

end Evolves

end BlockState

/-! ## Lowering -/

namespace BlockContext

variable (context : BlockContext) {insn : Instruction} {state : BlockState} {l : Lowering}

/-- A lowering whose state has come from another by what an instruction does. -/
abbrev Evolves (insn : Instruction) (state : BlockState) (l : Lowering) : Prop :=
  BlockState.Evolves context.scope.isManaged insn.effect state l.state

theorem evolves_commit (h : context.Evolves insn state l) (required : List Symbol)
    (force : Symbol → Expr → Bool) :
    context.Evolves insn state (context.commit required force l) := by
  rw [Evolves, state_commit]
  exact h.commit required force

theorem evolves_clobber (h : context.Evolves insn state l) (symbols : List Symbol) :
    context.Evolves insn state (context.clobber symbols l) :=
  (context.evolves_commit h [] _).discardAll symbols

theorem evolves_applyFrameUpdates (h : context.Evolves insn state l) :
    context.Evolves insn state (context.applyFrameUpdates insn l) := by
  apply h.updateAll h (fun _ => true)
  intro entry hentry
  obtain ⟨⟨location, value⟩, hwrite, hupdate⟩ := List.mem_filterMap.mp hentry
  cases location with
  | sym symbol =>
      dsimp only at hupdate
      split at hupdate
      · rename_i hmanaged
        obtain rfl := Option.some.inj hupdate
        exact ⟨hmanaged.symm, value, hwrite, rfl⟩
      · cases hupdate
  | mem | port => cases hupdate

theorem evolves_unmodeled (h : context.Evolves insn state l) :
    context.Evolves insn state (context.unmodeled insn l) := by
  apply BlockState.Evolves.discardAll
  apply context.evolves_applyFrameUpdates
  exact context.evolves_commit h [] _

theorem evolves_plain (h : context.Evolves insn state l) :
    context.Evolves insn state (context.plain insn l) := by
  have hready : context.Evolves insn state (context.ready insn l) := by
    rw [ready]
    split
    · exact context.evolves_commit h _ _
    · exact h
  apply hready.updateAll hready context.scope.isManaged
  intro entry hentry
  obtain ⟨⟨location, value⟩, hwrite, hupdate⟩ := List.mem_filterMap.mp hentry
  cases location with
  | sym symbol =>
      obtain rfl := Option.some.inj hupdate
      exact ⟨rfl, value, hwrite, rfl⟩
  | mem | port => cases hupdate

theorem evolves_finishCall (h : context.Evolves insn state l) (rest : List Instruction)
    (ret : CType) (call : CExpr) :
    context.Evolves insn state (context.finishCall insn rest ret call l) := by
  have hcleared := context.evolves_clobber h (context.config.scratchRegisters.map Symbol.reg)
  rw [finishCall]
  apply context.evolves_applyFrameUpdates
  split
  · exact hcleared
  · exact hcleared

theorem evolves_call (h : context.Evolves insn state l) (rest : List Instruction) :
    context.Evolves insn state (context.call insn rest l) := by
  have hready := context.evolves_commit h (context.required.filter fun symbol =>
    symbol ∉ context.config.scratchRegisters.map Symbol.reg) ifReadsMemory
  rw [call]
  dsimp only
  split
  · -- a declaration does not concern the state
    split <;> exact context.evolves_finishCall (l := Lowering.mapDeclarations _ _) hready rest _ _
  · exact context.evolves_finishCall hready rest _ _
  · exact context.evolves_unmodeled hready

theorem evolves_jump (h : context.Evolves insn state l) :
    context.Evolves insn state (context.jump insn l) := by
  rw [jump]
  split
  · exact h
  · exact context.evolves_unmodeled h
  · exact context.evolves_unmodeled h
  · exact context.evolves_commit h _ _

theorem evolves_branch (h : context.Evolves insn state l) (cond : CExpr) :
    context.Evolves insn state (context.branch insn cond l) := by
  rw [branch]
  split
  · exact h
  · exact h

theorem evolves_getSpecial (h : context.Evolves insn state l) (reg : SpecialReg) :
    context.Evolves insn state (context.getSpecial insn reg l) := by
  rw [getSpecial]
  split
  · exact context.evolves_clobber (l := l.declare _ _ _) h _
  · exact context.evolves_unmodeled h

theorem evolves_loadTable (h : context.Evolves insn state l) (table : DescriptorTable) :
    context.Evolves insn state (context.loadTable insn table l) := by
  simp only [loadTable]
  split
  · exact h
  · exact context.evolves_unmodeled h

theorem evolves_systemLoad (h : context.Evolves insn state l) (load : SystemLoad) :
    context.Evolves insn state (context.systemLoad insn load l) := by
  simp only [systemLoad]
  split
  · exact h
  · exact context.evolves_unmodeled h

theorem evolves_portOut (h : context.Evolves insn state l) :
    context.Evolves insn state (context.portOut insn l) := by
  rw [portOut]
  split
  · exact h
  · exact context.evolves_unmodeled h

theorem evolves_portIn (h : context.Evolves insn state l) :
    context.Evolves insn state (context.portIn insn l) := by
  rw [portIn]
  split
  · exact context.evolves_clobber (l := l.declare _ _ _) h _
  · exact context.evolves_unmodeled h

/-- Lowering an instruction changes the state in these ways only. -/
theorem evolves_lower (insn : Instruction) (rest : List Instruction) (l : Lowering) :
    context.Evolves insn l.state (context.lower insn rest l) := by
  have hstart : context.Evolves insn l.state l := .refl
  rw [lower]
  cases insn.kind with
  | jcc cc => exact context.evolves_branch (context.evolves_commit hstart _ _) _
  | loop cc => exact context.evolves_branch (context.evolves_commit hstart _ _) _
  | ret => exact context.evolves_commit hstart _ _
  | call => exact context.evolves_call hstart rest
  | jmp => exact context.evolves_jump hstart
  | movToSpecial | passthrough => exact hstart
  | movFromSpecial reg => exact context.evolves_getSpecial hstart reg
  | plain => exact context.evolves_plain hstart
  | descriptorTable table => exact context.evolves_loadTable hstart table
  | systemLoad load => exact context.evolves_systemLoad hstart load
  | portOut => exact context.evolves_portOut hstart
  | portIn => exact context.evolves_portIn hstart
  | unmodeled => exact context.evolves_unmodeled hstart

/-- Lowers the instructions of a block up to the `rest` of them. -/
def lowerUpTo (context : BlockContext) :
    List Instruction → List Instruction → Lowering → Lowering
  | [], _, l => l
  | insn :: more, rest, l => context.lowerUpTo more rest (context.lower insn (more ++ rest) l)

theorem lowerAll_lowerUpTo (first rest : List Instruction) (l : Lowering) :
    context.lowerAll (first ++ rest) l =
      context.lowerAll rest (context.lowerUpTo first rest l) := by
  induction first generalizing l with
  | nil => rfl
  | cons insn more ih => exact ih _

/-- What each instruction keeps of a block state holds at every point of a block. -/
theorem lowerUpTo_invariant {P : BlockState → Prop} {first : List Instruction}
    (hstep : ∀ insn ∈ first, ∀ rest l, P l.state → P (context.lower insn rest l).state)
    (rest : List Instruction) {l : Lowering} (h : P l.state) :
    P (context.lowerUpTo first rest l).state := by
  induction first generalizing l with
  | nil => exact h
  | cons insn more ih =>
      obtain ⟨hinsn, hmore⟩ := List.forall_mem_cons.mp hstep
      exact ih hmore (hinsn _ l h)

end BlockContext

/-! ## Pending and managed symbols -/

theorem BlockState.get?_live_discard (state : BlockState) (symbol other : Symbol) :
    (state.discard symbol).live.get? other =
      if symbol = other then none else state.live.get? other :=
  SortedMap.get?_erase state.live symbol other

theorem BlockState.Bound.discard {state : BlockState} (h : state.Bound) (symbol : Symbol) :
    (state.discard symbol).Bound := by
  intro other hother
  obtain ⟨hpending, hne⟩ := List.mem_filter.mp hother
  rw [get?_live_discard, if_neg (Ne.symm (of_decide_eq_true hne))]
  exact h other hpending

namespace BlockState.Framed

variable {managed : Symbol → Bool} {state : BlockState}

theorem discard (h : state.Framed managed) (symbol : Symbol) :
    (state.discard symbol).Framed managed := by
  have hlive : ∀ other value, (state.discard symbol).live.get? other = some value →
      other ≠ symbol ∧ state.live.get? other = some value := by
    intro other value hvalue
    rw [get?_live_discard] at hvalue
    split at hvalue
    · cases hvalue
    · rename_i hne
      exact ⟨Ne.symm hne, hvalue⟩
  refine ⟨⟨h.nodup.filter _, Bound.discard h.bound symbol, ?_, ?_⟩, ?_⟩
  · intro other value hvalue
    exact h.processor other value (hlive other value hvalue).2
  · intro other value hvalue
    exact h.unnamed other value (hlive other value hvalue).2
  · intro other value hvalue
    obtain ⟨hne, hbound⟩ := hlive other value hvalue
    rw [← h.pending_iff other value hbound]
    exact List.mem_filter.trans (and_iff_left (decide_eq_true hne))

/-- What an effect over the processor's symbols does to a block state keeps this. -/
theorem evolves {effect : Effect} {state' : BlockState}
    (hwrites : ∀ symbol value, (.sym symbol, value) ∈ effect →
      symbol.onProcessor ∧ ∀ read, value.references read → read.isNamed = false)
    (h : state.Framed managed) (hevolves : Evolves managed effect state state') :
    state'.Framed managed := by
  induction hevolves with
  | refl => exact h
  | commit _ required force ih => exact ih.commit required force
  | discard _ symbol ih => exact ih.discard symbol
  | update _ _ hwrite ih ihread =>
      obtain ⟨hprocessor, hunnamed⟩ := hwrites _ _ hwrite
      exact ih.update hprocessor (ihread.unnamed_eval hunnamed)

end BlockState.Framed

/-- Output to a port writes nothing else. -/
theorem Opcode.effect?_portOut : ∀ (operands : List Operand),
    ∀ write ∈ (Opcode.portOut.effect? operands).getD [], write.1.asSymbol? = none
  | [_, _], _, hwrite => congrArg (fun write => write.1.asSymbol?) (List.mem_singleton.mp hwrite)
  | [], _, hwrite | [_], _, hwrite | _ :: _ :: _ :: _, _, hwrite =>
      absurd hwrite List.not_mem_nil

/-- What a lifted instruction writes to a symbol has the form of lifted values. -/
theorem Instruction.Lifted.writeForm_symbol {insn : Instruction} (hlifted : insn.Lifted)
    {symbol : Symbol} {value : Expr} (hwrite : (.sym symbol, value) ∈ insn.effect) :
    WriteForm (.sym symbol, value) := by
  by_cases hopcode : insn.opcode = .portOut
  · rw [hlifted.effect_eq, hopcode] at hwrite
    exact absurd (Opcode.effect?_portOut insn.operands _ hwrite) (Option.some_ne_none symbol)
  · exact hlifted.writeForm hopcode _ hwrite

/-- A lifted instruction writes to symbols of the processor, and no names from
outside. -/
theorem Instruction.Lifted.symbol_write {insn : Instruction} (hlifted : insn.Lifted)
    {symbol : Symbol} {value : Expr} (hwrite : (.sym symbol, value) ∈ insn.effect) :
    symbol.onProcessor ∧ ∀ read, value.references read → read.isNamed = false := by
  cases hlifted.writeForm_symbol hwrite with
  | symbol hprocessor hoperands _ => exact ⟨hprocessor, Expr.isNamed_of_operands hoperands⟩

/-! ## Forms of the values of a block -/

namespace LiveForm

variable {managed : Symbol → Bool} {effect : Effect} {state state' : BlockState}

/-- A binding with fewer symbols. -/
theorem mono {live live' : Binding} (h : LiveForm live)
    (hsub : ∀ symbol value, live'.get? symbol = some value → live.get? symbol = some value) :
    LiveForm live' :=
  ⟨fun symbol value hvalue => h.processor symbol value (hsub symbol value hvalue),
    fun symbol value hvalue => h.form symbol value (hsub symbol value hvalue)⟩

theorem commit (h : LiveForm state.live) (required : List Symbol)
    (force : Symbol → Expr → Bool) : LiveForm (state.commit required force).state.live := by
  apply h.mono
  intro symbol value hvalue
  rw [BlockState.get?_live_commit] at hvalue
  split at hvalue
  · cases hvalue
  · exact hvalue

/-- What an effect of lifted form does to a block state keeps the forms of its values. -/
theorem evolves (hwrites : ∀ symbol value, (.sym symbol, value) ∈ effect →
      WriteForm (.sym symbol, value))
    (h : LiveForm state.live) (hevolves : BlockState.Evolves managed effect state state') :
    LiveForm state'.live := by
  induction hevolves with
  | refl => exact h
  | commit _ required force ih => exact ih.commit required force
  | discard _ symbol ih =>
      apply ih.mono
      intro other value hvalue
      rw [BlockState.get?_live_discard] at hvalue
      split at hvalue
      · cases hvalue
      · exact hvalue
  | @update state read _ _ symbol value hwrite ih ihread =>
      cases hwrites symbol value hwrite with
      | symbol hprocessor hoperands hform =>
          constructor
          · intro other bound hbound
            rw [BlockState.get?_live_update] at hbound
            split at hbound
            · rename_i hsame
              exact hsame ▸ hprocessor
            · exact ih.processor other bound hbound
          · intro other bound hbound
            rw [BlockState.get?_live_update] at hbound
            split at hbound
            · rename_i hsame
              cases hbound
              exact hsame ▸ ihread.valueForm_eval hoperands hform
            · exact ih.form other bound hbound

end LiveForm

namespace EmissionContext

/-- At every point of a block of lifted instructions what is bound is pending unless
the frame manages it. -/
theorem framed_lowerUpTo (context : EmissionContext) (deps : Dependencies) (block : Block)
    (emission : Emission) {first : List Instruction} (hlifted : ∀ insn ∈ first, insn.Lifted)
    (rest : List Instruction) :
    ((context.blockContext deps block).lowerUpTo first rest
      (context.blockStart block emission)).state.Framed context.scope.isManaged := by
  apply BlockContext.lowerUpTo_invariant (P := BlockState.Framed context.scope.isManaged)
  · intro insn hinsn rest l h
    exact h.evolves (fun _ _ => (hlifted insn hinsn).symbol_write)
      ((context.blockContext deps block).evolves_lower insn rest l)
  · exact context.scope.framed_blockFrame block.address

/-- At every point of a block of lifted instructions the bound values have their forms. -/
theorem liveForm_lowerUpTo (context : EmissionContext) (deps : Dependencies)
    (block : Block) (emission : Emission) {first : List Instruction}
    (hlifted : ∀ insn ∈ first, insn.Lifted) (rest : List Instruction) :
    LiveForm ((context.blockContext deps block).lowerUpTo first rest
      (context.blockStart block emission)).state.live := by
  apply BlockContext.lowerUpTo_invariant (P := fun state => LiveForm state.live)
  · intro insn hinsn rest l h
    exact h.evolves (fun _ _ => (hlifted insn hinsn).writeForm_symbol)
      ((context.blockContext deps block).evolves_lower insn rest l)
  · exact context.scope.liveForm_blockFrame block.address

end EmissionContext

end Uncompile
