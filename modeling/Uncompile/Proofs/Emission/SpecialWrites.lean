import Uncompile.Proofs.Emission.Declared
import Uncompile.Proofs.Emission.Demands

/-!
# Writes to special registers

Moves to segment, control and debug registers and loads of the system tables become calls
of intrinsics where they stand. Other instructions that write a special register are plain
ones, and what they write is held back like the value of any register. But special
registers are no part of the data flow: nothing asks for them by name. So the value
reaches its variable only if a later commit forces it out, or writes out something that it
reads; where no such commit comes, the write leaves no statement.
-/

namespace Uncompile

/-! ## Values held back -/

namespace BlockState

variable {state : BlockState} {required : List Symbol} {force : Symbol → Expr → Bool}

/-- If a symbol is pending, then with the given value. -/
def HoldsBack (state : BlockState) (symbol : Symbol) (value : Expr) : Prop :=
  symbol ∈ state.pending → state.live.get? symbol = some value

/-- A pending symbol is written out if it is asked for or forced out, or if its value reads
the variable of another symbol that is. -/
theorem mem_targets_iff {symbol : Symbol} {value : Expr} (hpending : symbol ∈ state.pending)
    (hvalue : state.live.get? symbol = some value) :
    symbol ∈ state.targets required force ↔
      symbol ∈ required ∨ force symbol value ∨
        ∃ read ∈ state.targets required force, read ≠ symbol ∧ value.references read := by
  constructor
  · intro htarget
    rcases mem_closure_cases (mem_targets_iff_mem_closure.mp htarget).2 with
      hwanted | ⟨-, read, hread, hstep⟩
    · have hasked := (List.mem_filter.mp hwanted).2
      simp only [hvalue, Option.any_some, Bool.or_eq_true, decide_eq_true_eq] at hasked
      exact hasked.imp_right .inl
    · obtain ⟨-, hne, hreads⟩ := mem_readersOf.mp hstep
      simp only [valueReads, hvalue, Option.any_some] at hreads
      have hpendingRead : read ∈ state.pending :=
        closure_induction (P := (· ∈ state.pending)) (fun _ => List.mem_of_mem_filter)
          (fun _ _ _ hcarrier _ => hcarrier) hread
      exact .inr (.inr ⟨read, mem_targets_iff_mem_closure.mpr ⟨hpendingRead, hread⟩,
        hne.symm, hreads⟩)
  · rintro (hasked | hforced | ⟨read, hread, hne, href⟩)
    · exact mem_targets_of_mem_wanted (List.mem_filter.mpr ⟨hpending, by simp [hasked]⟩)
    · exact mem_targets_of_mem_wanted (List.mem_filter.mpr ⟨hpending, by simp [hvalue, hforced]⟩)
    · exact mem_targets_of_valueReads hread hpending hne.symm (by simp [valueReads, hvalue, href])

/-- A commit assigns a variable only if the value of its symbol is written out. -/
theorem mem_stmts_commit_iff {managed : Symbol → Bool} (h : state.Framed managed)
    {symbol : Symbol} (hsymbol : symbol.isNamed = false) {value : Expr}
    (hheld : state.HoldsBack symbol value) {stmt : Stmt} :
    stmt ∈ (state.commit required force).stmts ∧ stmt.assigned? = some symbol.text ↔
      symbol ∈ state.targets required force ∧ value ≠ .sym symbol ∧
        stmt = .assign (.ofSymbol symbol) (.ofExpr value) := by
  constructor
  · rintro ⟨hstmt, hassigned⟩
    obtain ⟨target, htarget, hassignment⟩ := List.mem_filterMap.mp hstmt
    rw [mem_sequence_targets] at htarget
    have hpending := mem_pending_of_mem_targets htarget
    obtain ⟨current, hcurrent⟩ := h.bound target hpending
    simp only [assignment?, hcurrent] at hassignment
    split at hassignment
    · cases hassignment
    · rename_i hne
      obtain rfl := Option.some.inj hassignment
      have hnamed := Symbol.isNamed_of_onProcessor (h.processor target current hcurrent)
      obtain rfl := Symbol.text_injective hnamed hsymbol (Option.some.inj hassigned)
      obtain rfl : current = value := Option.some.inj (hcurrent.symm.trans (hheld hpending))
      exact ⟨htarget, hne, rfl⟩
  · rintro ⟨htarget, hne, rfl⟩
    refine ⟨List.mem_filterMap.mpr ⟨symbol, mem_sequence_targets.mpr htarget, ?_⟩, rfl⟩
    simp only [assignment?, hheld (mem_pending_of_mem_targets htarget), if_neg hne]

end BlockState

/-- On the way from one lowering to another a value that is held back is released, if
`taken` says so: its assignment is emitted, unless the value is the variable itself, and
no other assignment to the variable. -/
structure Lowering.Releases (symbol : Symbol) (value : Expr) (l l' : Lowering) (taken : Prop) :
    Prop where
  stmts : ∃ stmts, l'.emission.body = l.emission.body ++ stmts ∧ ∀ stmt,
    stmt ∈ stmts ∧ stmt.assigned? = some symbol.text ↔
      symbol ∈ l.state.pending ∧ taken ∧ value ≠ .sym symbol ∧
        stmt = .assign (.ofSymbol symbol) (.ofExpr value)
  pending : symbol ∈ l'.state.pending ↔ symbol ∈ l.state.pending ∧ ¬taken
  held : l'.state.HoldsBack symbol value

namespace Lowering.Releases

variable {symbol : Symbol} {value : Expr} {l l' l'' : Lowering} {taken taken' : Prop}

theorem trans (h : l.Releases symbol value l' taken) (h' : l'.Releases symbol value l'' taken') :
    l.Releases symbol value l'' (taken ∨ taken') := by
  obtain ⟨first, hfirst, hbefore⟩ := h.stmts
  obtain ⟨second, hsecond, hafter⟩ := h'.stmts
  refine ⟨⟨first ++ second, by rw [hsecond, hfirst, List.append_assoc], fun stmt => ?_⟩, ?_,
    h'.held⟩
  · have hpending := h.pending
    have hleft := hbefore stmt
    have hright := hafter stmt
    rw [List.mem_append]
    grind
  · have hpending := h.pending
    have hpending' := h'.pending
    grind

theorem congr (h : l.Releases symbol value l' taken) (htaken : taken ↔ taken') :
    l.Releases symbol value l' taken' := by
  rwa [← htaken]

end Lowering.Releases

/-! ## Commits -/

namespace BlockContext

/-- Whether commits write out a value that nothing asks for by name: one of them forces it
out, or writes out another symbol that it reads. -/
def Reaches (context : BlockContext) (symbol : Symbol) (value : Expr) :
    List Demand → Lowering → Prop
  | [], _ => False
  | demand :: more, l =>
    demand.force symbol value ∨
      (∃ read ∈ l.state.targets demand.required demand.force,
        read ≠ symbol ∧ value.references read) ∨
      context.Reaches symbol value more (context.commit demand.required demand.force l)

variable (context : BlockContext) {insn : Instruction} {symbol : Symbol} {value : Expr}
  {l : Lowering}

theorem releases_commit (hsymbol : symbol.isNamed = false)
    (hframed : l.state.Framed context.scope.isManaged) (hheld : l.state.HoldsBack symbol value)
    {demand : Demand} (hrequired : symbol ∉ demand.required) :
    l.Releases symbol value (context.commit demand.required demand.force l)
      (demand.force symbol value ∨ ∃ read ∈ l.state.targets demand.required demand.force,
        read ≠ symbol ∧ value.references read) := by
  have htarget : symbol ∈ l.state.targets demand.required demand.force ↔
      symbol ∈ l.state.pending ∧ (demand.force symbol value ∨
        ∃ read ∈ l.state.targets demand.required demand.force,
          read ≠ symbol ∧ value.references read) := by
    by_cases hpending : symbol ∈ l.state.pending
    · rw [BlockState.mem_targets_iff hpending (hheld hpending)]
      simp only [hrequired, hpending, false_or, true_and]
    · exact iff_of_false (fun h => hpending (BlockState.mem_pending_of_mem_targets h))
        (fun h => hpending h.1)
  refine ⟨⟨_, context.body_commit _ _ l, fun stmt => ?_⟩, ?_, ?_⟩
  · rw [BlockState.mem_stmts_commit_iff hframed hsymbol hheld, htarget, and_assoc]
  · rw [state_commit, BlockState.mem_pending_commit, htarget]
    grind
  · intro hpending
    rw [state_commit] at hpending ⊢
    obtain ⟨hbefore, hnot⟩ := BlockState.mem_pending_commit.mp hpending
    rw [BlockState.get?_live_commit, if_neg hnot]
    exact hheld hbefore

theorem releases_meet (hsymbol : symbol.isNamed = false) {demands : List Demand}
    (hrequired : ∀ demand ∈ demands, symbol ∉ demand.required)
    (hframed : l.state.Framed context.scope.isManaged) (hheld : l.state.HoldsBack symbol value) :
    l.Releases symbol value (context.meet demands l) (context.Reaches symbol value demands l) := by
  induction demands generalizing l with
  | nil => exact ⟨⟨[], (List.append_nil _).symm, by simp [Reaches]⟩, by simp [meet, Reaches], hheld⟩
  | cons demand more ih =>
      obtain ⟨hdemand, hmore⟩ := List.forall_mem_cons.mp hrequired
      have hcommit := context.releases_commit hsymbol hframed hheld hdemand
      have hframed' := context.framed_meet hframed [demand]
      exact (hcommit.trans (ih hmore hframed' hcommit.held)).congr or_assoc

end BlockContext

/-! ## Instructions -/

/-- Whether an instruction gives a symbol a value that takes the place of the one held
back. -/
def Instruction.overwrites (insn : Instruction) (symbol : Symbol) : Bool :=
  insn.kind = .plain && symbol ∈ insn.effectWrites

/-- What the effect of an instruction binds is written. -/
theorem Instruction.mem_effectWrites_of_get? {insn : Instruction} {symbol : Symbol} {value : Expr}
    (hvalue : insn.effect.toBinding.get? symbol = some value) : symbol ∈ insn.effectWrites :=
  List.mem_filterMap.mpr ⟨_, Effect.mem_of_get?_toBinding hvalue, rfl⟩

namespace BlockContext

variable (context : BlockContext) {insn : Instruction} {r : SpecialReg} {value : Expr}
  {l : Lowering}

/-- The value of a special register that an instruction does not overwrite is what it was
in the state in which the instruction computes its values. -/
theorem special_lower (hlifted : insn.Lifted) (hkept : insn.overwrites (.special r) = false)
    (rest : List Instruction) (l : Lowering) :
    (.special r ∈ (context.lower insn rest l).state.pending ↔
      .special r ∈ (context.meet (context.demands insn) l).state.pending) ∧
    (context.lower insn rest l).state.live.get? (.special r) =
      (context.meet (context.demands insn) l).state.live.get? (.special r) := by
  have hclobbers : .special r ∉ context.clobbers insn := by
    intro hmem
    obtain ⟨other, hother⟩ := context.reg_of_mem_clobbers hmem
    cases hother
  have hpending : .special r ∈ (context.cleared insn l).pending ↔
      .special r ∈ (context.meet (context.demands insn) l).state.pending := by
    rw [cleared, BlockState.mem_pending_discardAll, and_iff_left hclobbers]
  have hlive : (context.cleared insn l).live.get? (.special r) =
      (context.meet (context.demands insn) l).state.live.get? (.special r) := by
    rw [cleared, BlockState.get?_live_discardAll, if_neg hclobbers]
  rw [← hpending, ← hlive]
  by_cases hkind : insn.kind = .plain
  · have hnot : .special r ∉ insn.effectWrites := by
      simpa [Instruction.overwrites, hkind] using hkept
    have hbinding : insn.effect.toBinding.get? (.special r) = none :=
      Option.eq_none_iff_forall_ne_some.mpr fun _ hvalue =>
        hnot (Instruction.mem_effectWrites_of_get? hvalue)
    rw [context.mem_pending_lower_plain hkind, context.get?_live_lower_plain hkind, hbinding]
    exact ⟨by simp [hnot], rfl⟩
  · rw [context.state_lower hlifted hkind]
    exact ⟨Iff.rfl, rfl⟩

/-- What an instruction asks for releases the value. -/
theorem releases_demands (hrequired : .special r ∉ context.required)
    (hframed : l.state.Framed context.scope.isManaged)
    (hheld : l.state.HoldsBack (.special r) value) (insn : Instruction) :
    l.Releases (.special r) value (context.meet (context.demands insn) l)
      (context.Reaches (.special r) value (context.demands insn) l) := by
  refine context.releases_meet rfl ?_ hframed hheld
  intro demand hdemand hsymbol
  exact hrequired (context.required_of_mem_demands hdemand hsymbol)

/-- One instruction that leaves the register alone. -/
theorem releases_lower (hrequired : .special r ∉ context.required)
    (hframed : l.state.Framed context.scope.isManaged)
    (hheld : l.state.HoldsBack (.special r) value) (hlifted : insn.Lifted)
    (hkept : insn.overwrites (.special r) = false) (rest : List Instruction) :
    l.Releases (.special r) value (context.lower insn rest l)
      (context.Reaches (.special r) value (context.demands insn) l) := by
  have hmet := context.releases_demands hrequired hframed hheld insn
  obtain ⟨hpending, hlive⟩ := context.special_lower hlifted hkept rest l
  obtain ⟨own, hown, hassigned⟩ := context.adds_lower insn rest l
  have hsilent : ∀ stmt ∈ own, stmt.assigned? ≠ some (Symbol.special r).text := by
    intro stmt hstmt hname
    obtain ⟨other, hother⟩ := hassigned stmt hstmt _ hname
    exact Symbol.noConfusion (Symbol.text_injective rfl rfl hother)
  have hadds : (context.meet (context.demands insn) l).Releases (.special r) value
      (context.lower insn rest l) False := by
    refine ⟨⟨own, hown, fun stmt => ?_⟩, ?_, ?_⟩
    · exact iff_of_false (fun h => hsilent stmt h.1 h.2) (fun h => h.2.1)
    · rw [hpending, not_false_eq_true, and_true]
    · intro h
      rw [hlive]
      exact hmet.held (hpending.mp h)
  exact (hmet.trans hadds).congr (iff_of_eq (or_false _))

/-- A plain instruction holds back what it writes to a special register. -/
theorem special_held (hkind : insn.kind = .plain)
    (hwrite : insn.effect.toBinding.get? (.special r) = some value) (rest : List Instruction)
    (l : Lowering) :
    .special r ∈ (context.lower insn rest l).state.pending ∧
      (context.lower insn rest l).state.live.get? (.special r) =
        some ((context.cleared insn l).eval value) := by
  rw [context.mem_pending_lower_plain hkind, context.get?_live_lower_plain hkind, hwrite]
  exact ⟨.inr ⟨Instruction.mem_effectWrites_of_get? hwrite, rfl⟩, rfl⟩

/-- Whether the value of a special register that is held back before the given
instructions is written out: before it is overwritten, or at the end of the block. -/
def Settles (context : BlockContext) (symbol : Symbol) (value : Expr) :
    List Instruction → Lowering → Prop
  | [], l => context.Reaches symbol value [context.atEnd] l
  | insn :: rest, l =>
    context.Reaches symbol value (context.demands insn) l ∨
      insn.overwrites symbol = false ∧
        context.Settles symbol value rest (context.lower insn rest l)

/-- Lowers instructions as far as a value that is held back can be written out. -/
def untilOverwritten (context : BlockContext) (symbol : Symbol) :
    List Instruction → Lowering → Lowering
  | [], l => context.meet [context.atEnd] l
  | insn :: rest, l =>
    if insn.overwrites symbol then context.meet (context.demands insn) l
    else context.untilOverwritten symbol rest (context.lower insn rest l)

theorem releases_untilOverwritten (hrequired : .special r ∉ context.required)
    {rest : List Instruction} (hlifted : ∀ insn ∈ rest, insn.Lifted)
    (hframed : l.state.Framed context.scope.isManaged)
    (hheld : l.state.HoldsBack (.special r) value) :
    l.Releases (.special r) value (context.untilOverwritten (.special r) rest l)
      (context.Settles (.special r) value rest l) := by
  induction rest generalizing l with
  | nil =>
      refine context.releases_meet rfl ?_ hframed hheld
      intro demand hdemand
      rwa [List.mem_singleton.mp hdemand]
  | cons insn rest ih =>
      obtain ⟨hinsn, hrest⟩ := List.forall_mem_cons.mp hlifted
      rw [untilOverwritten, Settles]
      by_cases hover : insn.overwrites (.special r)
      · rw [if_pos hover]
        refine (context.releases_demands hrequired hframed hheld insn).congr ?_
        simp [hover]
      · rw [if_neg hover]
        rw [Bool.not_eq_true] at hover
        have hlower := context.releases_lower hrequired hframed hheld hinsn hover rest
        have hframed' := hframed.evolves (fun _ _ => hinsn.symbol_write)
          (context.evolves_lower insn rest l)
        refine (hlower.trans (ih hrest hframed' hlower.held)).congr ?_
        simp [hover]

/-! ## The statements of a block -/

theorem body_commit_grows (required : List Symbol) (force : Symbol → Expr → Bool) (l : Lowering) :
    l.emission.body <+: (context.commit required force l).emission.body := by
  rw [body_commit]
  exact List.prefix_append _ _

theorem body_meet_grows (demands : List Demand) (l : Lowering) :
    l.emission.body <+: (context.meet demands l).emission.body := by
  induction demands generalizing l with
  | nil => exact List.prefix_rfl
  | cons demand more ih => exact (context.body_commit_grows _ _ l).trans (ih _)

theorem meet_lower_grows (insn : Instruction) (rest : List Instruction) (l : Lowering) :
    (context.meet (context.demands insn) l).emission.body <+:
      (context.lower insn rest l).emission.body := by
  obtain ⟨own, hown, -⟩ := context.adds_lower insn rest l
  exact hown ▸ List.prefix_append _ _

theorem body_lower_grows (insn : Instruction) (rest : List Instruction) (l : Lowering) :
    l.emission.body <+: (context.lower insn rest l).emission.body :=
  (context.body_meet_grows _ l).trans (context.meet_lower_grows insn rest l)

theorem body_lowerAll_grows (insns : List Instruction) (l : Lowering) :
    l.emission.body <+: (context.lowerAll insns l).emission.body := by
  induction insns generalizing l with
  | nil => exact List.prefix_rfl
  | cons insn rest ih => exact (context.body_lower_grows insn rest l).trans (ih _)

/-- The block goes on from where a value can no longer be written out. -/
theorem untilOverwritten_grows (symbol : Symbol) (rest : List Instruction) (l : Lowering) :
    (context.untilOverwritten symbol rest l).emission.body <+:
      (context.commit context.required never (context.lowerAll rest l)).emission.body := by
  induction rest generalizing l with
  | nil => exact List.prefix_rfl
  | cons insn rest ih =>
      rw [untilOverwritten]
      split
      · exact (context.meet_lower_grows insn rest l).trans
          ((context.body_lowerAll_grows rest _).trans (context.body_commit_grows _ _ _))
      · exact ih _

/-- Instructions that write a special register and are not plain become calls of
intrinsics. -/
theorem calls_intrinsic_lower (hlifted : insn.Lifted) (hkind : insn.kind ≠ .plain)
    (hwrite : (.sym (.special r), value) ∈ insn.effect) (rest : List Instruction) (l : Lowering) :
    ∃ stmts name args, (context.lower insn rest l).emission.body = l.emission.body ++ stmts ∧
      IntrinsicName name ∧ (.expr (.call name args) ∈ stmts ∨
        .assign (.ofSymbol (.reg .eax)) (.call name args) ∈ stmts) := by
  have hother : ∀ target : Operand, (∀ other, target ≠ .special other) → ∀ e,
      (.sym (.special r), value) ∉ target.assign e := by
    intro target htarget e
    cases target with
    | reg register size =>
        rw [Operand.assign, Operand.assign?]
        split <;> simp [Location.reg]
    | special other => exact absurd rfl (htarget other)
    | imm | mem => simp [Operand.assign, Operand.assign?]
  cases hlifted.form with
  | plain hplain => exact absurd hplain hkind
  | idle _ heffect | misfit _ _ heffect =>
      rw [heffect] at hwrite
      exact absurd hwrite List.not_mem_nil
  | loop _ heffect => simp [heffect, Location.reg] at hwrite
  | ret _ heffect => simp [heffect, Lift.ret, Location.reg] at hwrite
  | getSpecial _ _ htarget heffect =>
      rw [heffect] at hwrite
      exact absurd hwrite (hother _ htarget _)
  | portOut _ _ heffect => simp [heffect] at hwrite
  | setSpecial hcase _ _ =>
      rw [lower, hcase]
      exact ⟨_, _, _, rfl, .setSpecial _, .inl (List.mem_singleton_self _)⟩
  | @loadTable table m hcase hoperands _ =>
      simp only [lower, hcase, loadTable, hoperands]
      refine ⟨_, _, _, rfl, ?_, .inl (List.mem_singleton_self _)⟩
      cases table
      · exact .loadSegments
      · exact .loadInterrupts
  | @systemLoad load source hcase hoperands _ =>
      simp only [lower, hcase, systemLoad, hoperands]
      refine ⟨_, _, _, rfl, ?_, .inl (List.mem_singleton_self _)⟩
      cases load
      · exact .loadTask
      · exact .loadLocalTable
  | @portIn target port hcase hoperands _ =>
      simp only [lower, hcase, portIn, hoperands]
      refine ⟨(l.state.commit [] (Demand.readers [.reg .eax]).force).stmts ++ [_],
        "intrinsic_in" ++ decimalText target.bitSize, [l.eval port.value], ?_, .portIn _,
        .inr (List.mem_append_right _ (List.mem_singleton_self _))⟩
      rw [← List.append_assoc]
      exact congrArg (· ++ _) (context.body_commit [] _ (l.declare _ _ _))

end BlockContext

/-- A block consists of what its instructions and the commit at its end emit, and of how it
continues. -/
theorem EmissionContext.lowered_grows (context : EmissionContext) (deps : Dependencies)
    {block : Block} {first rest : List Instruction} (hblock : block.instructions = first ++ rest)
    (next : Option Address) (emission : Emission) {inner : BlockContext}
    (hinner : inner = context.blockContext deps block) :
    (inner.commit inner.required BlockContext.never (inner.lowerAll rest
      (inner.lowerUpTo first rest (context.blockStart block emission)))).emission.body <+:
        (context.emitBlock deps block next emission).body := by
  obtain ⟨last, hlast, -⟩ := context.finishBlock_body block next (inner.commit inner.required
    BlockContext.never (inner.lowerAll block.instructions (context.blockStart block emission)))
  rw [← BlockContext.lowerAll_lowerUpTo, ← hblock]
  subst hinner
  exact hlast ▸ List.prefix_append _ last

/-- What is required of a block are registers and flags. -/
theorem AnalysisContext.isRegister_of_mem_writes {context : AnalysisContext}
    {blocks : List Address} {deps : Dependencies} (hcollect : context.collect blocks = .ok deps)
    {address : Address} {symbol : Symbol}
    (hsymbol : symbol ∈ deps.eliminateDeadWrites.writes address) : symbol.isRegister := by
  have hfold : ∀ (insns : List Instruction) (start : BlockDeps),
      (∀ symbol ∈ start.writes, symbol.isRegister) →
        ∀ symbol ∈ (insns.foldl context.addInstruction start).writes, symbol.isRegister := by
    intro insns
    induction insns with
    | nil => exact fun _ h => h
    | cons insn rest ih =>
        intro start hstart
        apply ih
        intro symbol hsymbol
        rcases mem_writes_addInstruction_iff.mp hsymbol with hsymbol | ⟨htracks, -⟩
        · exact hstart symbol hsymbol
        · exact (tracks_iff.mp htracks).1
  have hwrites := (Dependencies.mem_writes_eliminateDeadWrites.mp hsymbol).1
  rw [Dependencies.writes] at hwrites
  cases hfound : deps.block? address with
  | none => simp [hfound] at hwrites
  | some found =>
      obtain ⟨block, -, rfl⟩ := block?_of_collect hcollect hfound
      rw [hfound] at hwrites
      exact hfold block.instructions {} (List.forall_mem_nil _) symbol hwrites

/-- What becomes of a write to a special register. An instruction that is not plain stands
as the call of an intrinsic. What a plain one writes is held back, and the block assigns it
to the register's variable exactly if a commit releases it before another plain instruction
overwrites it, unless it is the value of the variable already. -/
theorem special_write_assigned_iff (context : AnalysisContext) {blocks : List Address}
    {deps : Dependencies} (hcollect : context.collect blocks = .ok deps) {block : Block}
    {first rest : List Instruction} {insn : Instruction}
    (hblock : block.instructions = first ++ insn :: rest)
    (hlifted : ∀ other ∈ block.instructions, other.Lifted) {r : SpecialReg} {value : Expr}
    (hwrite : insn.effect.toBinding.get? (.special r) = some value) (next : Option Address)
    (emission : Emission) {outer : EmissionContext} {inner : BlockContext}
    {before after : Lowering}
    (hinner : inner = outer.blockContext deps.eliminateDeadWrites block)
    (hbefore : before = inner.lowerUpTo first (insn :: rest) (outer.blockStart block emission))
    (hafter : after = inner.lower insn rest before) :
    (insn.kind ≠ .plain → ∃ stmts more name args,
      (outer.emitBlock deps.eliminateDeadWrites block next emission).body =
        before.emission.body ++ stmts ++ more ∧
      after.emission.body = before.emission.body ++ stmts ∧
      IntrinsicName name ∧ (.expr (.call name args) ∈ stmts ∨
        .assign (.ofSymbol (.reg .eax)) (.call name args) ∈ stmts)) ∧
    (insn.kind = .plain → ∃ stmts more held,
      (outer.emitBlock deps.eliminateDeadWrites block next emission).body =
        after.emission.body ++ stmts ++ more ∧
      (inner.untilOverwritten (.special r) rest after).emission.body =
        after.emission.body ++ stmts ∧
      held = (inner.cleared insn before).eval value ∧
      ∀ stmt, stmt ∈ stmts ∧ stmt.assigned? = some r.text ↔
        inner.Settles (.special r) held rest after ∧ held ≠ .sym (.special r) ∧
          stmt = .assign (.ofSymbol (.special r)) (.ofExpr held)) := by
  have hinsn : insn.Lifted := hlifted insn (hblock ▸ by simp)
  have hfirst : ∀ other ∈ first, other.Lifted := fun other hother =>
    hlifted other (hblock ▸ by simp [hother])
  have hrest : ∀ other ∈ rest, other.Lifted := fun other hother =>
    hlifted other (hblock ▸ by simp [hother])
  have hgrows := outer.lowered_grows deps.eliminateDeadWrites hblock next emission hinner
  rw [← hbefore, BlockContext.lowerAll, ← hafter] at hgrows
  constructor
  · intro hkind
    obtain ⟨stmts, name, args, hbody, hintrinsic⟩ := inner.calls_intrinsic_lower hinsn hkind
      (Effect.mem_of_get?_toBinding hwrite) rest before
    rw [← hafter] at hbody
    obtain ⟨more, hmore⟩ := (inner.body_lowerAll_grows rest after).trans
      ((inner.body_commit_grows _ _ _).trans hgrows)
    rw [hbody] at hmore
    exact ⟨stmts, more, name, args, hmore.symm, hbody, hintrinsic⟩
  · intro hkind
    have hrequired : .special r ∉ inner.required := by
      intro hmem
      rw [hinner] at hmem
      exact absurd (AnalysisContext.isRegister_of_mem_writes hcollect hmem) Bool.false_ne_true
    have hframed : after.state.Framed inner.scope.isManaged := by
      have hupTo := outer.framed_lowerUpTo deps.eliminateDeadWrites block emission hfirst
        (insn :: rest)
      rw [← hinner, ← hbefore] at hupTo
      rw [hafter, hinner]
      exact hupTo.evolves (fun _ _ => hinsn.symbol_write) (BlockContext.evolves_lower _ _ _ _)
    obtain ⟨hpending, hheld⟩ := inner.special_held hkind hwrite rest before
    rw [← hafter] at hpending hheld
    have hreleases := inner.releases_untilOverwritten hrequired hrest hframed fun _ => hheld
    obtain ⟨stmts, hstmts, hassigned⟩ := hreleases.stmts
    obtain ⟨more, hmore⟩ := (inner.untilOverwritten_grows (.special r) rest after).trans hgrows
    rw [hstmts] at hmore
    refine ⟨stmts, more, _, hmore.symm, hstmts, rfl, fun stmt => ?_⟩
    rw [← and_iff_right hpending (b := _ ∧ _ ∧ _)]
    exact hassigned stmt

namespace PoppedSegment

/-- A segment register is popped off the stack. -/
def pop : Instruction := .ofMnemonic 16 "pop" [.special (.segment .ds)]

def store : Instruction := .ofMnemonic 17 "mov" [.atOffset .ebx 0, .ofReg .eax]

def back : Instruction := .ofMnemonic 19 "ret" []

def block (rest : List Instruction) : Block := { address := 16, instructions := pop :: rest }

def scope (rest : List Instruction) : FrameScope :=
  .install (Program.insertBlock {} (block rest)).disassembler 16 [16] .ebp

def analysis (rest : List Instruction) : AnalysisContext :=
  { scope := scope rest, declarations := {}, config := {} }

def deps (rest : List Instruction) : Dependencies :=
  ((analysis rest).collect [16]).toOption.getD { entry := 16, blocks := [] }

def context (rest : List Instruction) : EmissionContext := ⟨scope rest, {}⟩

/-- The statements of a function of one block. -/
def body (rest : List Instruction) : List Stmt :=
  ((context rest).emitBlock (deps rest).eliminateDeadWrites (block rest) none
    { declarations := {} }).body

/-- Before a store the popped value, which lies in memory, is assigned to the register. -/
theorem special_write_assigned_iff_stored :
    (analysis [store, back]).collect [16] = .ok (deps [store, back]) ∧
      (∀ insn ∈ (block [store, back]).instructions, insn.Lifted) ∧
      pop.effect.toBinding.get? (.special (.segment .ds)) = some (.mem (.reg .esp) 4) ∧
      .assign (.var "ds") (.stackVar 0 4) ∈ body [store, back] := by
  have hcollect : (analysis [store, back]).collect [16] = .ok (deps [store, back]) :=
    AnalysisContext.collect_eq_ok (by decide +kernel) _
  have hlifted : ∀ insn ∈ (block [store, back]).instructions, insn.Lifted := by
    simp only [block, List.forall_mem_cons]
    exact ⟨rfl, rfl, rfl, List.forall_mem_nil _⟩
  have hwrite : pop.effect.toBinding.get? (.special (.segment .ds)) =
      some (.mem (.reg .esp) 4) := by decide +kernel
  obtain ⟨stmts, more, held, hbody, -, hheld, hassigned⟩ :=
    (special_write_assigned_iff (analysis [store, back]) hcollect
      (show (block [store, back]).instructions = [] ++ pop :: [store, back] from rfl) hlifted
      hwrite none { declarations := {} }
      (show _ = (context [store, back]).blockContext _ _ from rfl) rfl rfl).2 (by decide +kernel)
  have hstore : store.kind = .plain ∧ store.writesMemory := by decide +kernel
  have hheld : held = .mem (.sym .framePtr) 4 := hheld.trans (by decide +kernel)
  have hsettles : ∀ (inner : BlockContext) (l : Lowering),
      inner.Settles (.special (.segment .ds)) held [store, back] l := by
    intro inner l
    rw [BlockContext.Settles, BlockContext.demands, hstore.1, hheld]
    simp only [hstore.2, if_true]
    exact .inl (.inl rfl)
  have hstmt := (hassigned _).mpr ⟨hsettles _ _, by simp [hheld], rfl⟩
  refine ⟨hcollect, hlifted, hwrite, ?_⟩
  rw [body, hbody]
  refine List.mem_append_left _ (List.mem_append_right _ ?_)
  rw [hheld] at hstmt
  exact hstmt.1

/-- The popped value is not asked for before the return, and the block does without it. -/
theorem popped_segment_lost :
    (.special (.segment .ds)) ∈ pop.effectWrites ∧
      (body [back]).map CText.stmt = ["return eax;"] := by
  decide +kernel

end PoppedSegment

end Uncompile
