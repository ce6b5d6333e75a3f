import Uncompile.Emission.Body
import Uncompile.Proofs.Emission.StraightBlock

/-!
# The segments of a body

Each block contributes one segment to the body of its function. All but its last
instruction give statements that do not transfer control; what follows is a
conditional goto, a goto or a return, by how the block ends. Labels are put in
front of segments without disturbing their order, also where segments are empty.
-/

namespace Uncompile

/-- Statements after which control goes on to the next one. -/
def Stmt.isStraight : Stmt → Bool
  | assign _ _ | expr _ | asm _ => true
  | _ => false

/-! ## Lowering without transfer -/

/-- A lowering that goes on from another with straight statements only. -/
structure Lowering.Extends (l l' : Lowering) : Prop where
  body : ∃ stmts, l'.emission.body = l.emission.body ++ stmts ∧ ∀ stmt ∈ stmts, stmt.isStraight
  successors : l'.successors = l.successors
  gotoTargets : l'.emission.gotoTargets = l.emission.gotoTargets
  blockStarts : l'.emission.blockStarts = l.emission.blockStarts

namespace Lowering.Extends

variable {l l' l'' : Lowering}

theorem refl (l : Lowering) : l.Extends l :=
  ⟨⟨[], (List.append_nil _).symm, List.forall_mem_nil _⟩, rfl, rfl, rfl⟩

theorem trans (h : l.Extends l') (h' : l'.Extends l'') : l.Extends l'' := by
  obtain ⟨stmts, hbody, hstraight⟩ := h.body
  obtain ⟨stmts', hbody', hstraight'⟩ := h'.body
  refine ⟨⟨stmts ++ stmts', ?_, List.forall_mem_append.mpr ⟨hstraight, hstraight'⟩⟩,
    h'.successors.trans h.successors, h'.gotoTargets.trans h.gotoTargets,
    h'.blockStarts.trans h.blockStarts⟩
  rw [hbody', hbody, List.append_assoc]

theorem emitAll (h : l.Extends l') {stmts : List Stmt} (hstmts : ∀ stmt ∈ stmts, stmt.isStraight) :
    l.Extends (l'.emitAll stmts) :=
  h.trans ⟨⟨stmts, rfl, hstmts⟩, rfl, rfl, rfl⟩

theorem emit (h : l.Extends l') {stmt : Stmt} (hstmt : stmt.isStraight) :
    l.Extends (l'.emit stmt) :=
  h.trans ⟨⟨[stmt], rfl, List.forall_mem_singleton.mpr hstmt⟩, rfl, rfl, rfl⟩

theorem report (h : l.Extends l') (diagnostic : Diagnostic) : l.Extends (l'.report diagnostic) :=
  ⟨h.body, h.successors, h.gotoTargets, h.blockStarts⟩

theorem mapDeclarations (h : l.Extends l') (change : DeclTable → DeclTable) :
    l.Extends (l'.mapDeclarations change) :=
  ⟨h.body, h.successors, h.gotoTargets, h.blockStarts⟩

theorem setState (h : l.Extends l') (state : BlockState) :
    l.Extends { l' with state := state } :=
  ⟨h.body, h.successors, h.gotoTargets, h.blockStarts⟩

end Lowering.Extends

/-- A commit only assigns. -/
theorem BlockState.isStraight_commit (state : BlockState) (required : List Symbol)
    (force : Symbol → Expr → Bool) :
    ∀ stmt ∈ (state.commit required force).stmts, stmt.isStraight := by
  intro stmt hstmt
  obtain ⟨symbol, _, hassignment⟩ := List.mem_filterMap.mp hstmt
  rw [assignment?] at hassignment
  split at hassignment
  · split at hassignment
    · cases hassignment
    · rw [← Option.some.inj hassignment]
      rfl
  · cases hassignment

namespace BlockContext

variable (context : BlockContext) {l l' : Lowering} (insn : Instruction)

open Lowering (Extends)

theorem extends_commit (h : l.Extends l') (required : List Symbol)
    (force : Symbol → Expr → Bool) : l.Extends (context.commit required force l') := by
  have hcommitted := (h.setState (l'.state.commit required force).state).emitAll
    (l'.state.isStraight_commit required force)
  rw [commit]
  split
  · exact hcommitted.report _
  · exact hcommitted

theorem extends_clobber (h : l.Extends l') (symbols : List Symbol) :
    l.Extends (context.clobber symbols l') :=
  (context.extends_commit h [] _).setState _

theorem extends_applyFrameUpdates (h : l.Extends l') :
    l.Extends (context.applyFrameUpdates insn l') :=
  h.setState _

theorem extends_unmodeled (h : l.Extends l') : l.Extends (context.unmodeled insn l') :=
  (context.extends_applyFrameUpdates insn ((context.extends_commit h [] _).emit rfl)).setState _

theorem extends_plain (h : l.Extends l') : l.Extends (context.plain insn l') := by
  have hready : l.Extends (context.ready insn l') := by
    rw [ready]
    split
    · exact context.extends_commit h _ _
    · exact h
  refine (hready.emitAll fun stmt hstmt => ?_).setState _
  obtain ⟨write, _, hstore⟩ := List.mem_filterMap.mp hstmt
  split at hstore
  · cases hstore
  · rw [← Option.some.inj hstore]
    rfl

theorem extends_finishCall (h : l.Extends l') (rest : List Instruction) (ret : CType)
    (call : CExpr) : l.Extends (context.finishCall insn rest ret call l') := by
  rw [finishCall]
  apply context.extends_applyFrameUpdates
  split
  · exact (context.extends_clobber h _).emit rfl
  · exact (context.extends_clobber h _).emit rfl

theorem extends_call (h : l.Extends l') (rest : List Instruction) :
    l.Extends (context.call insn rest l') := by
  rw [call]
  have hready := context.extends_commit h (context.required.filter fun symbol =>
    symbol ∉ context.config.scratchRegisters.map Symbol.reg) ifReadsMemory
  dsimp only
  split
  · split
    · exact context.extends_finishCall insn (hready.mapDeclarations _) rest _ _
    · exact context.extends_finishCall insn (hready.mapDeclarations _) rest _ _
  · exact context.extends_finishCall insn hready rest _ _
  · exact context.extends_unmodeled insn hready

theorem extends_setSpecial (h : l.Extends l') (reg : SpecialReg) :
    l.Extends (setSpecial insn reg l') :=
  (h.mapDeclarations _).emit rfl

theorem extends_getSpecial (h : l.Extends l') (reg : SpecialReg) :
    l.Extends (context.getSpecial insn reg l') := by
  rw [getSpecial]
  split
  · exact (context.extends_clobber (h.mapDeclarations _) _).emit rfl
  · exact context.extends_unmodeled insn (h.mapDeclarations _)

theorem extends_loadTable (h : l.Extends l') (table : DescriptorTable) :
    l.Extends (context.loadTable insn table l') := by
  simp only [loadTable]
  split
  · exact ((h.mapDeclarations _).mapDeclarations _).emit rfl
  · exact context.extends_unmodeled insn ((h.mapDeclarations _).mapDeclarations _)

theorem extends_systemLoad (h : l.Extends l') (load : SystemLoad) :
    l.Extends (context.systemLoad insn load l') := by
  simp only [systemLoad]
  split
  · exact (h.mapDeclarations _).emit rfl
  · exact context.extends_unmodeled insn (h.mapDeclarations _)

theorem extends_portOut (h : l.Extends l') : l.Extends (context.portOut insn l') := by
  rw [portOut]
  split
  · exact (h.mapDeclarations _).emit rfl
  · exact context.extends_unmodeled insn h

theorem extends_portIn (h : l.Extends l') : l.Extends (context.portIn insn l') := by
  rw [portIn]
  split
  · exact (context.extends_clobber (h.mapDeclarations _) _).emit rfl
  · exact context.extends_unmodeled insn h

end BlockContext

/-- Jumps, branches and returns. -/
def Kind.isTransfer : Kind → Bool
  | jcc _ | loop _ | ret | jmp => true
  | _ => false

namespace BlockContext

variable (context : BlockContext)

/-- An instruction that is no transfer gives straight statements. -/
theorem extends_lower {insn : Instruction} (hinsn : insn.kind.isTransfer = false)
    (rest : List Instruction) (l : Lowering) : l.Extends (context.lower insn rest l) := by
  have hrefl := Lowering.Extends.refl l
  rw [lower]
  cases hkind : insn.kind with
  | jcc | loop | ret | jmp => simp [hkind, Kind.isTransfer] at hinsn
  | call => exact context.extends_call insn hrefl rest
  | movToSpecial reg => exact extends_setSpecial insn hrefl reg
  | movFromSpecial reg => exact context.extends_getSpecial insn hrefl reg
  | plain => exact context.extends_plain insn hrefl
  | descriptorTable table => exact context.extends_loadTable insn hrefl table
  | systemLoad load => exact context.extends_systemLoad insn hrefl load
  | portOut => exact context.extends_portOut insn hrefl
  | portIn => exact context.extends_portIn insn hrefl
  | passthrough => exact hrefl.emit rfl
  | unmodeled => exact context.extends_unmodeled insn hrefl

theorem extends_lowerAll {body : List Instruction}
    (hbody : ∀ insn ∈ body, insn.kind.isTransfer = false) (last : List Instruction)
    (l : Lowering) :
    ∃ l', l.Extends l' ∧ context.lowerAll (body ++ last) l = context.lowerAll last l' := by
  induction body generalizing l with
  | nil => exact ⟨l, .refl l, rfl⟩
  | cons insn rest ih =>
      obtain ⟨hinsn, hrest⟩ := List.forall_mem_cons.mp hbody
      obtain ⟨l', hextends, hlower⟩ := ih hrest (context.lower insn (rest ++ last) l)
      exact ⟨l', (context.extends_lower hinsn _ l).trans hextends, hlower⟩

end BlockContext

/-! ## How blocks end -/

/-- Where control goes at the end of a block. -/
inductive Flow where
  | branch (taken otherwise : Address)
  | through (next : Address)
  | ret

/-- The ways for a block to end: in a branch or loop with a fixed target and one
other successor, in a jump with a fixed target or no transfer at all and one
successor, or in a return. No other instruction transfers control. -/
inductive Block.Flows (block : Block) (scope : FrameScope) : Flow → Prop
  | branch {body : List Instruction} {insn : Instruction} {taken otherwise : Address}
      (hinsns : block.instructions = body ++ [insn])
      (hbody : ∀ insn ∈ body, insn.kind.isTransfer = false)
      (hkind : (∃ cc, insn.kind = .jcc cc) ∨ ∃ cc, insn.kind = .loop cc)
      (htarget : scope.target? insn = some (.address taken)) (hne : taken ≠ otherwise)
      (hsuccessors : block.successors.Perm [taken, otherwise]) :
      Flows block scope (.branch taken otherwise)
  | jump {body : List Instruction} {insn : Instruction} {target next : Address}
      (hinsns : block.instructions = body ++ [insn])
      (hbody : ∀ insn ∈ body, insn.kind.isTransfer = false) (hkind : insn.kind = .jmp)
      (htarget : insn.target? = some (.address target)) (hsuccessors : block.successors = [next]) :
      Flows block scope (.through next)
  | ordinary {next : Address} (hbody : ∀ insn ∈ block.instructions, insn.kind.isTransfer = false)
      (hsuccessors : block.successors = [next]) : Flows block scope (.through next)
  | ret {body : List Instruction} {insn : Instruction}
      (hinsns : block.instructions = body ++ [insn])
      (hbody : ∀ insn ∈ body, insn.kind.isTransfer = false) (hkind : insn.kind = .ret)
      (hsuccessors : block.successors = []) : Flows block scope .ret

/-- Where control can go at the end of a block. -/
def Flow.targets : Flow → List Address
  | branch taken otherwise => [taken, otherwise]
  | through next => [next]
  | ret => []

theorem Block.Flows.targets_subset {block : Block} {scope : FrameScope} {flow : Flow}
    (h : block.Flows scope flow) :
    flow.targets ⊆ block.successors := by
  cases h with
  | branch _ _ _ _ _ hsuccessors => exact hsuccessors.symm.subset
  | jump _ _ _ _ hsuccessors | ordinary _ hsuccessors | ret _ _ _ hsuccessors =>
      rw [hsuccessors]
      exact List.Subset.refl _

/-- What a block has to jump to when `next` is emitted after it. -/
def Flow.gotos (next : Option Address) : Flow → List Address
  | branch taken otherwise => taken :: if some otherwise = next then [] else [otherwise]
  | through address => if some address = next then [] else [address]
  | ret => []

theorem Flow.gotos_subset (next : Option Address) (flow : Flow) :
    flow.gotos next ⊆ flow.targets := by
  intro target htarget
  cases flow with
  | branch taken otherwise =>
      rcases List.mem_cons.mp htarget with rfl | hother
      · exact List.mem_cons_self
      · split at hother
        · exact absurd hother List.not_mem_nil
        · exact List.mem_cons_of_mem _ hother
  | through address =>
      rw [gotos] at htarget
      split at htarget
      · exact absurd htarget List.not_mem_nil
      · exact htarget
  | ret => exact htarget

namespace EmissionContext

/-- The goto to a block, unless it is emitted next. -/
def onward (context : EmissionContext) (next : Option Address) (address : Address) : List Stmt :=
  if some address = next then [] else [.goto (context.labelFor address)]

/-- The statements of a block: straight ones, and then what its end asks for. -/
inductive Shape (context : EmissionContext) (next : Option Address) : Flow → List Stmt → Prop
  | branch {straight : List Stmt} (hstraight : ∀ stmt ∈ straight, stmt.isStraight) (cond : CExpr)
      (taken otherwise : Address) :
      Shape context next (.branch taken otherwise)
        (straight ++ .ifGoto cond (context.labelFor taken) :: context.onward next otherwise)
  | through {straight : List Stmt} (hstraight : ∀ stmt ∈ straight, stmt.isStraight)
      (address : Address) :
      Shape context next (.through address) (straight ++ context.onward next address)
  | ret {straight : List Stmt} (hstraight : ∀ stmt ∈ straight, stmt.isStraight)
      (value : Option CExpr) : Shape context next .ret (straight ++ [.ret value])

/-- A block with one successor left goes on there. -/
theorem finishBlock_only (context : EmissionContext) (block : Block) (next : Option Address)
    {l : Lowering} {only : Address} (hsuccessors : l.successors = [only]) :
    (context.finishBlock block next l).body = l.emission.body ++ context.onward next only ∧
      (context.finishBlock block next l).blockStarts = l.emission.blockStarts ∧
      ∀ address, address ∈ (context.finishBlock block next l).gotoTargets ↔
        address ∈ l.emission.gotoTargets ∨ address ∈ (Flow.through only).gotos next := by
  simp only [finishBlock, hsuccessors, onward, Flow.gotos]
  split
  · simp
  · simp [Lowering.markGoto, Lowering.emit, OrderedSet.mem_add]

/-- A block with no successor left adds nothing. -/
theorem finishBlock_none (context : EmissionContext) (block : Block) (next : Option Address)
    {l : Lowering} (hsuccessors : l.successors = []) :
    (context.finishBlock block next l).body = l.emission.body ∧
      (context.finishBlock block next l).blockStarts = l.emission.blockStarts ∧
      (context.finishBlock block next l).gotoTargets = l.emission.gotoTargets := by
  simp only [finishBlock, hsuccessors]
  split <;> exact ⟨rfl, rfl, rfl⟩

end EmissionContext

/-- An emission with the statements of one more block, and what they jump to
marked. -/
structure Emission.Grows (emission : Emission) (stmts : List Stmt) (gotos : List Address)
    (emission' : Emission) : Prop where
  body : emission'.body = emission.body ++ stmts
  blockStarts : emission'.blockStarts = emission.blockStarts
  gotoTargets : ∀ address, address ∈ emission'.gotoTargets ↔
    address ∈ emission.gotoTargets ∨ address ∈ gotos

namespace BlockContext

variable (context : BlockContext) {block : Block} (next : Option Address) {start l : Lowering}

/-- The commit at the end of a block changes nothing where nothing required is
pending. -/
theorem finishBlock_of_settled
    (hsettled : ∀ symbol ∈ context.required, symbol ∉ l.state.pending) :
    context.finishBlock block next (context.commit context.required never l) =
      context.finishBlock block next l := by
  obtain ⟨hstmts, hcyclic⟩ := BlockState.commit_of_settled hsettled
  simp only [commit, hstmts, hcyclic, Bool.false_eq_true, if_false, Lowering.emitAll,
    List.append_nil]
  rfl

/-- A branch or loop commits what is required and branches. -/
theorem lower_branch {insn : Instruction}
    (hkind : (∃ cc, insn.kind = .jcc cc) ∨ ∃ cc, insn.kind = .loop cc)
    (rest : List Instruction) (l : Lowering) :
    ∃ force cond, context.lower insn rest l =
      context.branch insn cond (context.commit context.required force l) := by
  rcases hkind with ⟨cc, hkind⟩ | ⟨cc, hkind⟩
  · exact ⟨never, _, by rw [lower, hkind]⟩
  · exact ⟨fun symbol _ => symbol = .reg .ecx, _, by rw [lower, hkind]; exact rfl⟩

theorem grows_through (hextends : start.Extends l) {address : Address}
    (hsuccessors : start.successors = [address]) :
    ∃ stmts, context.Shape next (.through address) stmts ∧
      start.emission.Grows stmts ((Flow.through address).gotos next)
        (context.finishBlock block next (context.commit context.required never l)) := by
  have hcommitted := context.extends_commit hextends context.required never
  obtain ⟨straight, hbody, hstraight⟩ := hcommitted.body
  obtain ⟨hfinish, hstarts, hgotos⟩ := context.finishBlock_only block next
    (hcommitted.successors.trans hsuccessors)
  refine ⟨_, .through hstraight address, ⟨?_, hstarts.trans hcommitted.blockStarts, ?_⟩⟩
  · rw [hfinish, hbody, List.append_assoc]
  · rw [hcommitted.gotoTargets] at hgotos
    exact hgotos

theorem grows_ret (hextends : start.Extends l) (hsuccessors : start.successors = [])
    {insn : Instruction} (hkind : insn.kind = .ret) :
    ∃ stmts, context.Shape next .ret stmts ∧
      start.emission.Grows stmts (Flow.ret.gotos next)
        (context.finishBlock block next
          (context.commit context.required never (context.lowerAll [insn] l))) := by
  have hcommitted := context.extends_commit hextends context.required never
  obtain ⟨straight, hbody, hstraight⟩ := hcommitted.body
  obtain ⟨value, hlast⟩ : ∃ value, context.lowerAll [insn] l =
      (context.commit context.required never l).emit (.ret value) :=
    ⟨_, by rw [lowerAll, lower, hkind]; exact rfl⟩
  have hsettled : ∀ symbol ∈ context.required,
      symbol ∉ (context.lowerAll [insn] l).state.pending := by
    rw [hlast]
    exact context.required_settled l
  have hnone : (context.lowerAll [insn] l).successors = [] := by
    rw [hlast]
    exact hcommitted.successors.trans hsuccessors
  rw [context.finishBlock_of_settled next hsettled]
  obtain ⟨hfinish, hstarts, hgotos⟩ := context.finishBlock_none block next hnone
  refine ⟨straight ++ [.ret value], .ret hstraight value, ⟨?_, ?_, ?_⟩⟩
  · rw [hfinish, hlast, ← List.append_assoc, ← hbody]
    rfl
  · rw [hstarts, hlast]
    exact hcommitted.blockStarts
  · intro address
    rw [hgotos, hlast, ← hcommitted.gotoTargets]
    exact (or_iff_left List.not_mem_nil).symm

theorem grows_branch (hextends : start.Extends l) {insn : Instruction}
    (hkind : (∃ cc, insn.kind = .jcc cc) ∨ ∃ cc, insn.kind = .loop cc) {taken otherwise : Address}
    (htarget : context.scope.target? insn = some (.address taken)) (hne : taken ≠ otherwise)
    (hsuccessors : start.successors.Perm [taken, otherwise]) :
    ∃ stmts, context.Shape next (.branch taken otherwise) stmts ∧
      start.emission.Grows stmts ((Flow.branch taken otherwise).gotos next)
        (context.finishBlock block next
          (context.commit context.required never (context.lowerAll [insn] l))) := by
  obtain ⟨force, cond, hlower⟩ := context.lower_branch hkind [] l
  have hcommitted := context.extends_commit hextends context.required force
  obtain ⟨straight, hbody, hstraight⟩ := hcommitted.body
  have hleft : start.successors.filter (· ≠ taken) = [otherwise] := by
    have hperm := hsuccessors.filter (· ≠ taken)
    have hfilter : [taken, otherwise].filter (· ≠ taken) = [otherwise] := by
      simp [hne.symm]
    rw [hfilter] at hperm
    exact List.perm_singleton.mp hperm
  have hsettled : ∀ symbol ∈ context.required,
      symbol ∉ (context.commit context.required force l).state.pending := by
    intro symbol hrequired
    rw [state_commit]
    exact BlockState.notMem_pending_commit force hrequired
  have hlast : context.lowerAll [insn] l = ({ context.commit context.required force l with
      successors := (context.commit context.required force l).successors.filter (· ≠ taken)
      }.markGoto taken).emit (.ifGoto cond (context.labelFor taken)) := by
    rw [lowerAll, lowerAll, hlower, branch, htarget]
  have honly : (context.lowerAll [insn] l).successors = [otherwise] := by
    rw [hlast, ← hleft, ← hcommitted.successors]
    rfl
  have hpending : ∀ symbol ∈ context.required,
      symbol ∉ (context.lowerAll [insn] l).state.pending := by
    rw [hlast]
    exact hsettled
  rw [context.finishBlock_of_settled next hpending]
  obtain ⟨hfinish, hstarts, hgotos⟩ := context.finishBlock_only block next honly
  refine ⟨_, .branch hstraight cond taken otherwise, ⟨?_, ?_, ?_⟩⟩
  · rw [hfinish, hlast]
    simp only [Lowering.emit, Lowering.markGoto, hbody, List.append_assoc, List.cons_append,
      List.nil_append]
  · rw [hstarts, hlast]
    exact hcommitted.blockStarts
  · intro address
    rw [hgotos, hlast]
    simp only [Lowering.emit, Lowering.markGoto, OrderedSet.mem_add, hcommitted.gotoTargets,
      Flow.gotos, List.mem_cons, or_assoc]

end BlockContext

namespace EmissionContext

variable (context : EmissionContext) (deps : Dependencies) {block : Block} (next : Option Address)
  (emission : Emission)

/-- A block adds the statements that its end asks for. -/
theorem emitBlock_grows {flow : Flow} (hflows : block.Flows context.scope flow) :
    ∃ stmts, context.Shape next flow stmts ∧
      (context.blockStart block emission).emission.Grows stmts (flow.gotos next)
        (context.emitBlock deps block next emission) := by
  let inner := context.blockContext deps block
  have hemit : context.emitBlock deps block next emission = context.finishBlock block next
      (inner.commit inner.required BlockContext.never
        (inner.lowerAll block.instructions (context.blockStart block emission))) := rfl
  rw [hemit]
  cases hflows with
  | ordinary hbody hsuccessors =>
      obtain ⟨l, hextends, hlower⟩ := inner.extends_lowerAll hbody [] _
      rw [List.append_nil] at hlower
      rw [hlower]
      exact inner.grows_through next hextends hsuccessors
  | jump hinsns hbody hkind htarget hsuccessors =>
      obtain ⟨l, hextends, hlower⟩ := inner.extends_lowerAll hbody [_] _
      rw [hinsns, hlower, BlockContext.lowerAll_jump hkind htarget]
      exact inner.grows_through next hextends hsuccessors
  | ret hinsns hbody hkind hsuccessors =>
      obtain ⟨l, hextends, hlower⟩ := inner.extends_lowerAll hbody [_] _
      rw [hinsns, hlower]
      exact inner.grows_ret next hextends hsuccessors hkind
  | branch hinsns hbody hkind htarget hne hsuccessors =>
      obtain ⟨l, hextends, hlower⟩ := inner.extends_lowerAll hbody [_] _
      rw [hinsns, hlower]
      exact inner.grows_branch next hextends hkind htarget hne hsuccessors

end EmissionContext

end Uncompile
