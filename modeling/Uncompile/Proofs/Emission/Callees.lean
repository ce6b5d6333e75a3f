import Uncompile.Proofs.Emission.Declared
import Uncompile.Proofs.Traversal

/-!
# What emission reads of its declarations

Lowering looks the declarations up for one thing only: the prototype of a function
that is called directly. So two emissions agree in everything but the declarations
they end with, if what is called has the same prototype in both.
-/

namespace Uncompile

/-! ## Callees -/

/-- The name of the function that an instruction calls directly. -/
def Disassembler.calledName? (code : Disassembler) (externPrefix : String)
    (insn : Instruction) : Option String :=
  match code.target? insn with
  | some (.address target) =>
    if insn.kind = .call then some (code.nameOf target externPrefix) else none
  | _ => none

theorem FrameScope.calledName?_eq (scope : FrameScope) {externPrefix : String}
    {insn : Instruction} {target : Address} (htarget : scope.target? insn = some (.address target))
    (hkind : insn.kind = .call) :
    scope.program.calledName? externPrefix insn =
      some (scope.program.nameOf target externPrefix) := by
  have htarget : scope.program.target? insn = some (.address target) := htarget
  rw [Disassembler.calledName?, htarget]
  exact if_pos hkind

/-- The names of the functions that instructions call directly. -/
def Disassembler.calledNames (code : Disassembler) (externPrefix : String)
    (insns : List Instruction) : List String :=
  insns.filterMap (code.calledName? externPrefix)

theorem Disassembler.calledNames_subset (code : Disassembler) (externPrefix : String)
    {insns more : List Instruction} (h : insns ⊆ more) :
    code.calledNames externPrefix insns ⊆ code.calledNames externPrefix more :=
  List.filterMap_subset _ h

/-- The same is known of functions in two tables, and emission does not make up their
names. -/
def DeclTable.AgreeOn (table other : DeclTable) (names : List String) : Prop :=
  ∀ name ∈ names, ¬ Synthesised name ∧ other.prototype name = table.prototype name

theorem DeclTable.AgreeOn.mono {table other : DeclTable} {names fewer : List String}
    (h : table.AgreeOn other names) (hfewer : fewer ⊆ names) : table.AgreeOn other fewer :=
  fun name hname => h name (hfewer hname)

/-- Emission does not change what is known of such functions. -/
theorem DeclTable.AgreeOn.advances {table other table' other' : DeclTable} {names : List String}
    (h : table.AgreeOn other names) (htable : table.Advances table')
    (hother : other.Advances other') : table'.AgreeOn other' names := by
  intro name hname
  obtain ⟨hsynthesised, hprototype⟩ := h name hname
  refine ⟨hsynthesised, ?_⟩
  rw [htable.prototype_eq hsynthesised, hother.prototype_eq hsynthesised, hprototype]

/-! ## Lowerings that differ in declarations -/

namespace Lowering

/-- The same text over other declarations. -/
def withDeclarations (l : Lowering) (table : DeclTable) : Lowering :=
  l.mapDeclarations fun _ => table

/-- Two lowerings that differ in their declarations at most. -/
def Alike (l other : Lowering) : Prop := ∃ table, other = l.withDeclarations table

namespace Alike

variable {l other : Lowering}

theorem symm (h : l.Alike other) : other.Alike l := by
  obtain ⟨_, rfl⟩ := h
  exact ⟨l.emission.declarations, rfl⟩

theorem trans {third : Lowering} (h : l.Alike other) (h' : other.Alike third) :
    l.Alike third := by
  obtain ⟨_, rfl⟩ := h
  obtain ⟨table, rfl⟩ := h'
  exact ⟨table, rfl⟩

theorem declare (h : l.Alike other) (name : String) (ret : CType) (params : List CType) :
    (l.declare name ret params).Alike (other.declare name ret params) := by
  obtain ⟨table, rfl⟩ := h
  exact ⟨_, rfl⟩

end Alike

end Lowering

namespace BlockContext

variable (context : BlockContext) (insn : Instruction) {l other : Lowering}

theorem alike_commit (h : l.Alike other) (required : List Symbol)
    (force : Symbol → Expr → Bool) :
    (context.commit required force l).Alike (context.commit required force other) := by
  obtain ⟨table, rfl⟩ := h
  have hstate : (l.withDeclarations table).state = l.state := rfl
  simp only [commit, hstate]
  split <;> exact ⟨table, rfl⟩

theorem alike_clobber (h : l.Alike other) (symbols : List Symbol) :
    (context.clobber symbols l).Alike (context.clobber symbols other) := by
  obtain ⟨table, htable⟩ := context.alike_commit h [] fun symbol value =>
    symbol ∉ symbols && symbols.any fun clobbered => value.references clobbered
  rw [clobber, clobber, htable]
  exact ⟨table, rfl⟩

theorem alike_unmodeled (h : l.Alike other) :
    (context.unmodeled insn l).Alike (context.unmodeled insn other) := by
  obtain ⟨table, htable⟩ := context.alike_commit h [] fun _ _ => true
  rw [unmodeled, unmodeled, htable]
  exact ⟨table, rfl⟩

theorem alike_branch (h : l.Alike other) (cond : CExpr) :
    (context.branch insn cond l).Alike (context.branch insn cond other) := by
  obtain ⟨table, rfl⟩ := h
  rw [branch, branch]
  split <;> exact ⟨table, rfl⟩

theorem alike_plain (h : l.Alike other) :
    (context.plain insn l).Alike (context.plain insn other) := by
  rw [plain, plain]
  split
  · obtain ⟨table, htable⟩ := context.alike_commit h context.required ifReadsMemory
    rw [htable]
    exact ⟨table, rfl⟩
  · obtain ⟨table, rfl⟩ := h
    exact ⟨table, rfl⟩

theorem alike_finishCall (h : l.Alike other) (rest : List Instruction) (ret : CType)
    (call : CExpr) :
    (context.finishCall insn rest ret call l).Alike
      (context.finishCall insn rest ret call other) := by
  obtain ⟨table, htable⟩ :=
    context.alike_clobber h (context.config.scratchRegisters.map Symbol.reg)
  rw [finishCall, finishCall, htable]
  split <;> exact ⟨table, rfl⟩

theorem alike_jump (h : l.Alike other) :
    (context.jump insn l).Alike (context.jump insn other) := by
  rw [jump, jump]
  split
  · exact h
  · exact context.alike_unmodeled insn h
  · exact context.alike_unmodeled insn h
  · obtain ⟨table, htable⟩ := context.alike_commit h context.required never
    rw [htable]
    exact ⟨table, rfl⟩

theorem alike_setSpecial (h : l.Alike other) (reg : SpecialReg) :
    (setSpecial insn reg l).Alike (setSpecial insn reg other) := by
  obtain ⟨table, rfl⟩ := h
  exact ⟨_, rfl⟩

theorem alike_getSpecial (h : l.Alike other) (reg : SpecialReg) :
    (context.getSpecial insn reg l).Alike (context.getSpecial insn reg other) := by
  have hdeclared := h.declare ("intrinsic_get_" ++ reg.text) (.int reg.bits) []
  rw [getSpecial, getSpecial]
  split
  · obtain ⟨table, htable⟩ := context.alike_clobber hdeclared [.reg _]
    rw [htable]
    exact ⟨table, rfl⟩
  · exact context.alike_unmodeled insn hdeclared

theorem alike_loadTable (h : l.Alike other) (table : DescriptorTable) :
    (context.loadTable insn table l).Alike (context.loadTable insn table other) := by
  have hdeclared : ∀ kind fields name params,
      ((l.mapDeclarations (declareTable kind fields)).declare name .void params).Alike
        ((other.mapDeclarations (declareTable kind fields)).declare name .void params) := by
    obtain ⟨declarations, rfl⟩ := h
    exact fun _ _ _ _ => ⟨_, rfl⟩
  simp only [loadTable]
  split
  · obtain ⟨declarations, hdeclarations⟩ := hdeclared _ _ _ _
    rw [hdeclarations]
    exact ⟨declarations, rfl⟩
  · exact context.alike_unmodeled insn (hdeclared _ _ _ _)

theorem alike_systemLoad (h : l.Alike other) (load : SystemLoad) :
    (context.systemLoad insn load l).Alike (context.systemLoad insn load other) := by
  simp only [systemLoad]
  split
  · obtain ⟨table, htable⟩ := h.declare _ .void [.word]
    rw [htable]
    exact ⟨table, rfl⟩
  · exact context.alike_unmodeled insn (h.declare _ _ _)

theorem alike_portOut (h : l.Alike other) :
    (context.portOut insn l).Alike (context.portOut insn other) := by
  rw [portOut, portOut]
  split
  · obtain ⟨table, rfl⟩ := h
    exact ⟨_, rfl⟩
  · exact context.alike_unmodeled insn h

theorem alike_portIn (h : l.Alike other) :
    (context.portIn insn l).Alike (context.portIn insn other) := by
  rw [portIn, portIn]
  split
  · rename_i target port _
    obtain ⟨table, htable⟩ := context.alike_clobber
      (h.declare ("intrinsic_in" ++ decimalText target.bitSize) (.int target.bitSize) [.ushort])
      [.reg .eax]
    have heval : other.eval = l.eval := by
      obtain ⟨table, rfl⟩ := h
      rfl
    dsimp only
    rw [htable, heval]
    exact ⟨table, rfl⟩
  · exact context.alike_unmodeled insn h

/-! ## Direct calls -/

theorem callArgs_of_alike (h : l.Alike other) (prototype : FunctionType) :
    context.callArgs insn prototype other = context.callArgs insn prototype l := by
  obtain ⟨table, rfl⟩ := h
  have hslots : ∀ start params,
      slotArgs context.config.pointerSize (l.withDeclarations table) start params =
        slotArgs context.config.pointerSize l start params := by
    intro start params
    induction params generalizing start with
    | nil => cases start <;> rfl
    | cons param rest ih =>
        cases start with
        | none => rw [slotArgs, slotArgs, ih]
        | some offset =>
            rw [slotArgs, slotArgs, ih]
            rfl
  rw [callArgs, callArgs, hslots]
  rfl

theorem declarations_commit (required : List Symbol) (force : Symbol → Expr → Bool)
    (l : Lowering) :
    (context.commit required force l).emission.declarations = l.emission.declarations := by
  rw [commit]
  split <;> rfl

/-- A direct call is made by what is taken for granted of its callee, declared or
not. -/
theorem call_eq_finishCall {target : Address}
    (htarget : context.scope.target? insn = some (.address target))
    {name : String} (hname : context.scope.program.nameOf target context.config.externPrefix = name)
    (rest : List Instruction) (l : Lowering) :
    ∃ declared : Lowering,
      (context.commit (context.required.filter fun symbol =>
        symbol ∉ context.config.scratchRegisters.map Symbol.reg) ifReadsMemory l).Alike declared ∧
      context.call insn rest l =
        context.finishCall insn rest (l.emission.declarations.prototype name).ret
          (.call name (context.callArgs insn (l.emission.declarations.prototype name) declared))
          declared := by
  subst hname
  let name := context.scope.program.nameOf target context.config.externPrefix
  let ready := context.commit (context.required.filter fun symbol =>
    symbol ∉ context.config.scratchRegisters.map Symbol.reg) ifReadsMemory l
  let declared := ready.mapDeclarations fun table =>
    table.declareOnce { name, kind := .function .unknown }
  have hprototype : declared.emission.declarations.prototype name =
      l.emission.declarations.prototype name := by
    refine (DeclTable.prototype_declareOnce_unknown _ _ _).trans ?_
    rw [context.declarations_commit]
  refine ⟨declared, ⟨_, rfl⟩, ?_⟩
  rw [← hprototype, DeclTable.prototype, call]
  simp only [htarget]
  split
  · rename_i prototype hfound
    have hdeclared : declared.emission.declarations.function? name = some prototype := hfound
    rw [hdeclared]
    rfl
  · rename_i hfound
    have hdeclared : declared.emission.declarations.function? name = none := hfound
    rw [hdeclared]
    rfl

theorem alike_call (h : l.Alike other) (rest : List Instruction)
    (hcallee : ∀ target, context.scope.target? insn = some (.address target) →
      other.emission.declarations.prototype
          (context.scope.program.nameOf target context.config.externPrefix) =
        l.emission.declarations.prototype
          (context.scope.program.nameOf target context.config.externPrefix)) :
    (context.call insn rest l).Alike (context.call insn rest other) := by
  have hready := context.alike_commit h (context.required.filter fun symbol =>
    symbol ∉ context.config.scratchRegisters.map Symbol.reg) ifReadsMemory
  cases htarget : context.scope.target? insn with
  | none =>
      simp only [call, htarget]
      exact context.alike_unmodeled insn hready
  | some callee =>
      cases callee with
      | indirect value =>
          simp only [call, htarget]
          obtain ⟨table, htable⟩ := hready
          rw [htable]
          exact context.alike_finishCall insn ⟨table, rfl⟩ rest .word _
      | address target =>
          obtain ⟨declared, hdeclared, hcall⟩ :=
            context.call_eq_finishCall insn htarget rfl rest l
          obtain ⟨declared', hdeclared', hcall'⟩ :=
            context.call_eq_finishCall insn htarget rfl rest other
          have halike := hdeclared.symm.trans (hready.trans hdeclared')
          rw [hcall, hcall', hcallee target htarget, context.callArgs_of_alike insn halike]
          exact context.alike_finishCall insn halike rest _ _

/-- Lowering an instruction makes the same text over declarations that agree on what
it calls. -/
theorem alike_lower (h : l.Alike other) (rest : List Instruction)
    (hcallees : l.emission.declarations.AgreeOn other.emission.declarations
      (context.scope.program.calledNames context.config.externPrefix [insn])) :
    (context.lower insn rest l).Alike (context.lower insn rest other) := by
  have hcommit := context.alike_commit h context.required never
  rw [lower, lower]
  cases hkind : insn.kind with
  | jcc cc =>
      obtain ⟨table, htable⟩ := hcommit
      rw [htable]
      exact context.alike_branch insn ⟨table, rfl⟩ _
  | loop cc =>
      obtain ⟨table, htable⟩ := context.alike_commit h context.required
        fun symbol _ => symbol = .reg .ecx
      simp only [loop, htable]
      exact context.alike_branch insn ⟨table, rfl⟩ _
  | ret =>
      obtain ⟨table, htable⟩ := hcommit
      rw [htable]
      exact ⟨table, rfl⟩
  | call =>
      refine context.alike_call insn h rest fun target htarget => ?_
      refine (hcallees _ ?_).2
      exact List.mem_filterMap.mpr ⟨insn, List.mem_singleton_self _,
        context.scope.calledName?_eq htarget hkind⟩
  | jmp => exact context.alike_jump insn h
  | movToSpecial reg => exact alike_setSpecial insn h reg
  | movFromSpecial reg => exact context.alike_getSpecial insn h reg
  | plain => exact context.alike_plain insn h
  | descriptorTable table => exact context.alike_loadTable insn h table
  | systemLoad load => exact context.alike_systemLoad insn h load
  | portOut => exact context.alike_portOut insn h
  | portIn => exact context.alike_portIn insn h
  | passthrough =>
      obtain ⟨table, rfl⟩ := h
      exact ⟨table, rfl⟩
  | unmodeled => exact context.alike_unmodeled insn h

theorem alike_lowerAll (h : l.Alike other) (insns : List Instruction)
    (hcallees : l.emission.declarations.AgreeOn other.emission.declarations
      (context.scope.program.calledNames context.config.externPrefix insns)) :
    (context.lowerAll insns l).Alike (context.lowerAll insns other) := by
  induction insns generalizing l other with
  | nil => exact h
  | cons insn rest ih =>
      have hfirst : [insn] ⊆ insn :: rest := by simp
      have hrest : l.emission.declarations.AgreeOn other.emission.declarations
          (context.scope.program.calledNames context.config.externPrefix rest) :=
        hcallees.mono (Disassembler.calledNames_subset _ _ (List.subset_cons_self _ _))
      apply ih
      · apply context.alike_lower insn h rest
        exact hcallees.mono (Disassembler.calledNames_subset _ _ hfirst)
      · exact hrest.advances (context.advances_lower insn rest l).declarations
          (context.advances_lower insn rest other).declarations

end BlockContext

/-! ## Functions -/

namespace EmissionContext

variable (context : EmissionContext) (deps : Dependencies)

theorem alike_finishBlock (block : Block) (next : Option Address) {l other : Lowering}
    (h : l.Alike other) : ∃ table, context.finishBlock block next other =
      { context.finishBlock block next l with declarations := table } := by
  obtain ⟨table, rfl⟩ := h
  refine ⟨table, ?_⟩
  have hsuccessors : (l.withDeclarations table).successors = l.successors := rfl
  simp only [finishBlock, hsuccessors]
  split
  · split <;> rfl
  · split <;> rfl
  · rfl

theorem alike_emitBlock (block : Block) (next : Option Address) {emission : Emission}
    {table : DeclTable}
    (hcallees : emission.declarations.AgreeOn table
      (context.scope.program.calledNames context.config.externPrefix block.instructions)) :
    ∃ table', context.emitBlock deps block next { emission with declarations := table } =
      { context.emitBlock deps block next emission with declarations := table' } := by
  let inner : BlockContext :=
    { context with block := block.address, required := deps.writes block.address }
  let opened (emission : Emission) : Lowering :=
    { emission := { emission with
        blockStarts := emission.blockStarts ++ [(block.address, emission.body.length)] },
      state := { live := context.scope.blockFrame block.address },
      successors := block.successors }
  have hopened : (opened emission).Alike (opened { emission with declarations := table }) :=
    ⟨table, rfl⟩
  have hlowered := inner.alike_lowerAll hopened block.instructions hcallees
  exact context.alike_finishBlock block next
    (inner.alike_commit hlowered inner.required BlockContext.never)

theorem alike_emitBlocks {addresses : List Address} {start emission : Emission}
    {table : DeclTable}
    (hcallees : start.declarations.AgreeOn table (context.scope.program.calledNames
      context.config.externPrefix
        ((addresses.filterMap context.scope.block?).flatMap Block.instructions)))
    (hemit : context.emitBlocks deps addresses start = .ok emission) :
    ∃ table', context.emitBlocks deps addresses { start with declarations := table } =
      .ok { emission with declarations := table' } := by
  induction addresses generalizing start table with
  | nil =>
      cases hemit
      exact ⟨table, rfl⟩
  | cons address rest ih =>
      rw [emitBlocks] at hemit ⊢
      cases hblock : context.scope.block? address with
      | none =>
          rw [hblock] at hemit
          cases hemit
      | some block =>
          rw [hblock] at hemit
          rw [List.filterMap_cons_some hblock, List.flatMap_cons] at hcallees
          have hhere := hcallees.mono (Disassembler.calledNames_subset _ _
            (List.subset_append_left _ _))
          have hrest := hcallees.mono (Disassembler.calledNames_subset _ _
            (List.subset_append_right _ _))
          obtain ⟨table', htable'⟩ := context.alike_emitBlock deps block rest.head? hhere
          have hother := (context.advances_emitBlock deps block rest.head?
            { start with declarations := table }).declarations
          rw [htable'] at hother
          dsimp only
          rw [htable']
          exact ih (hrest.advances
            (context.advances_emitBlock deps block rest.head? start).declarations hother) hemit

/-- A function has the same text over declarations that agree on what it calls. -/
theorem alike_emit {declarations other : DeclTable} {addresses : List Address}
    {emission : Emission}
    (hcallees : declarations.AgreeOn other (context.scope.program.calledNames
      context.config.externPrefix
        ((addresses.filterMap context.scope.block?).flatMap Block.instructions)))
    (hemit : context.emit deps declarations addresses = .ok emission) :
    ∃ table, context.emit deps other addresses = .ok { emission with declarations := table } := by
  obtain ⟨emitted, hblocks, rfl⟩ := context.emit_eq_ok deps hemit
  obtain ⟨table, htable⟩ := context.alike_emitBlocks deps hcallees hblocks
  refine ⟨table, ?_⟩
  rw [emit, htable]
  rfl

end EmissionContext

/-! ## Analysis -/

namespace AnalysisContext

variable {context : AnalysisContext} {other : DeclTable}

/-- What a direct call passes in registers is told by the prototype of its callee,
declared or not. -/
theorem argumentRegisters_eq (context : AnalysisContext) {insn : Instruction} {target : Address}
    (htarget : context.scope.target? insn = some (.address target)) {callee : FunctionType}
    (hcallee : context.declarations.prototype
      (context.scope.program.nameOf target context.config.externPrefix) = callee) :
    context.argumentRegisters insn =
      if callee.fastcall then
        ([context.config.fastcallRegisters.1, context.config.fastcallRegisters.2].zip
          callee.params).filterMap fun slot => if slot.2.unused then none else some (.reg slot.1)
      else [] := by
  subst hcallee
  simp only [argumentRegisters, calleeType?, htarget]
  split
  · rename_i found hfound
    rw [DeclTable.prototype, hfound]
    rfl
  · rename_i hfound
    rw [DeclTable.prototype, hfound]
    rfl

theorem addInstruction_eq {insn : Instruction} (deps : BlockDeps)
    (hcallees : context.declarations.AgreeOn other
      (context.scope.program.calledNames context.config.externPrefix [insn])) :
    addInstruction { context with declarations := other } deps insn =
      context.addInstruction deps insn := by
  have harguments : insn.kind = .call →
      argumentRegisters { context with declarations := other } insn =
        context.argumentRegisters insn := by
    intro hkind
    cases htarget : context.scope.target? insn with
    | none => simp only [argumentRegisters, calleeType?, htarget]
    | some callee =>
        cases callee with
        | indirect value => simp only [argumentRegisters, calleeType?, htarget]
        | address target =>
            have hprototype := (hcallees
              (context.scope.program.nameOf target context.config.externPrefix)
              (List.mem_filterMap.mpr ⟨insn, List.mem_singleton_self _,
                context.scope.calledName?_eq htarget hkind⟩)).2
            exact (argumentRegisters_eq { context with declarations := other } htarget
              hprototype).trans (context.argumentRegisters_eq htarget rfl).symm
  simp only [addInstruction]
  split
  · rename_i hkind
    simp only [addCall, harguments hkind]
    rfl
  · rfl

/-- The dependencies of blocks are the same over declarations that agree on what they
call. -/
theorem collect_eq_of_agreeOn {scope : FrameScope} {declarations : DeclTable} {config : Config}
    {addresses : List Address}
    (hcallees : declarations.AgreeOn other (scope.program.calledNames config.externPrefix
      ((addresses.filterMap scope.block?).flatMap Block.instructions))) :
    collect { scope, declarations := other, config } addresses =
      collect { scope, declarations, config } addresses := by
  let context : AnalysisContext := { scope, declarations, config }
  have hblock : ∀ address ∈ addresses, ∀ block, scope.block? address = some block →
      blockDeps { context with declarations := other } addresses block =
        context.blockDeps addresses block := by
    intro address haddress block hblock
    have hfold : block.instructions.foldl
        (addInstruction { context with declarations := other }) {} =
          block.instructions.foldl context.addInstruction {} := by
      apply List.foldl_ext
      intro deps insn hinsn
      apply addInstruction_eq
      apply hcallees.mono
      apply Disassembler.calledNames_subset
      rw [List.cons_subset]
      exact ⟨List.mem_flatMap.mpr ⟨block, List.mem_filterMap.mpr ⟨address, haddress, hblock⟩,
        hinsn⟩, List.nil_subset _⟩
    rw [blockDeps, hfold, blockDeps]
  simp only [collect]
  congr 1
  apply Traversal.mapM_congr
  intro address haddress
  have hlisted : address ∈ addresses := by simpa [OrderedSet.mem_addAll] using haddress
  simp only [collectBlock]
  cases hfound : scope.block? address with
  | none => rfl
  | some block => exact congrArg _ (congrArg _ (hblock address hlisted block hfound))

end AnalysisContext

end Uncompile
