import Uncompile.Emission.Body

/-!
# What emission declares and reports

Whatever the instruction, lowering it changes the declarations in three ways only:
a function that is called is declared unless its name is taken, so is an intrinsic,
and the structures of a descriptor table are put in. A callee that is declared
without being known counts for no more than one that is not declared at all. So
what is known of a function changes only under the names that emission makes up
itself. What lowering reports concerns single blocks.
-/

namespace Uncompile

/-! ## Names made up by emission -/

/-- The functions that stand for what instructions do and C cannot say. -/
inductive IntrinsicName : String → Prop
  | setSpecial (reg : SpecialReg) : IntrinsicName ("intrinsic_set_" ++ reg.text)
  | getSpecial (reg : SpecialReg) : IntrinsicName ("intrinsic_get_" ++ reg.text)
  | loadSegments : IntrinsicName "intrinsic_lgdt"
  | loadInterrupts : IntrinsicName "intrinsic_lidt"
  | loadTask : IntrinsicName "intrinsic_ltr"
  | loadLocalTable : IntrinsicName "intrinsic_lldt"
  | portOut (bits : Nat) : IntrinsicName ("intrinsic_out" ++ decimalText bits)
  | portIn (bits : Nat) : IntrinsicName ("intrinsic_in" ++ decimalText bits)

/-- The kinds of descriptors that have a table. -/
def descriptorKinds : List String := ["segment", "interrupt"]

/-- The structures of descriptors and of their tables. -/
def structureNames : List String :=
  descriptorKinds.flatMap fun kind => [kind ++ "_descriptor", kind ++ "_table"]

/-- The names that emission may declare on its own. -/
def Synthesised (name : String) : Prop := IntrinsicName name ∨ name ∈ structureNames

/-- The names of intrinsics have a beginning of their own. -/
theorem IntrinsicName.isPrefix {name : String} (h : IntrinsicName name) :
    "intrinsic_".toList <+: name.toList := by
  have happend : ∀ (kind rest : String), "intrinsic_".toList <+: kind.toList →
      "intrinsic_".toList <+: (kind ++ rest).toList := by
    intro kind rest hkind
    rw [String.toList_append]
    exact hkind.trans (List.prefix_append _ _)
  cases h with
  | setSpecial reg => exact happend _ _ (by decide)
  | getSpecial reg => exact happend _ _ (by decide)
  | loadSegments => decide
  | loadInterrupts => decide
  | loadTask => decide
  | loadLocalTable => decide
  | portOut bits => exact happend _ _ (by decide)
  | portIn bits => exact happend _ _ (by decide)

theorem not_synthesised {name : String} (hintrinsic : ¬ "intrinsic_".toList <+: name.toList)
    (hstructure : name ∉ structureNames) : ¬ Synthesised name := by
  rintro (hname | hname)
  · exact hintrinsic hname.isPrefix
  · exact hstructure hname

namespace DeclTable

theorem get?_insert (table : DeclTable) (decl : Declaration) (name : String) :
    (table.insert decl).get? name = if decl.name = name then some decl else table.get? name := by
  simp only [insert, get?]
  induction table.decls with
  | nil =>
      rw [insertDecl, List.find?_cons, List.find?_nil]
      by_cases hname : decl.name = name <;> simp [hname]
  | cons other rest ih =>
      rw [insertDecl]
      by_cases hsame : other.name = decl.name
      · rw [if_pos hsame, List.find?_cons, List.find?_cons, hsame]
        by_cases hname : decl.name = name <;> simp [hname]
      · rw [if_neg hsame, List.find?_cons, List.find?_cons, ih]
        by_cases hother : other.name = name
        · have hname : decl.name ≠ name := fun h => hsame (hother.trans h.symm)
          simp [hother, hname]
        · simp [hother]

theorem get?_declareOnce (table : DeclTable) (decl : Declaration) (name : String) :
    (table.declareOnce decl).get? name =
      if decl.name = name then some ((table.get? name).getD decl) else table.get? name := by
  rw [declareOnce, contains]
  by_cases hname : decl.name = name
  · subst hname
    cases hfound : table.get? decl.name with
    | none => simp [get?_insert]
    | some found => simp [hfound]
  · rw [if_neg hname]
    split
    · rfl
    · rw [get?_insert, if_neg hname]

/-- What a call takes for granted of the function with a name. -/
def prototype (table : DeclTable) (name : String) : FunctionType :=
  (table.function? name).getD .unknown

theorem prototype_congr {table table' : DeclTable} {name : String}
    (h : table'.get? name = table.get? name) : table'.prototype name = table.prototype name := by
  rw [prototype, function?, h, prototype, function?]

/-- To declare a function of which nothing is known says nothing new. -/
theorem prototype_declareOnce_unknown (table : DeclTable) (callee name : String) :
    (table.declareOnce { name := callee, kind := .function .unknown }).prototype name =
      table.prototype name := by
  rw [prototype, function?, get?_declareOnce, prototype, function?]
  split
  · cases table.get? name with
    | none => rfl
    | some found => rfl
  · rfl

/-- A table that emission has made of another. -/
inductive Advances (start : DeclTable) : DeclTable → Prop
  | refl : Advances start start
  | callee {table : DeclTable} (h : Advances start table) (name : String) :
      Advances start (table.declareOnce { name, kind := .function .unknown })
  | intrinsic {table : DeclTable} (h : Advances start table) {name : String}
      (hname : IntrinsicName name) (ret : CType) (params : List CType) :
      Advances start (table.declareFunction name ret params)
  | structures {table : DeclTable} (h : Advances start table) {kind : String}
      (hkind : kind ∈ descriptorKinds) (fields : List (String × Nat)) :
      Advances start (BlockContext.declareTable kind fields table)

theorem get?_declareTable {kind name : String} (hname : name ≠ kind ++ "_table")
    (fields : List (String × Nat)) (table : DeclTable)
    (hdescriptor : name ≠ kind ++ "_descriptor" ∨ table.contains name) :
    (BlockContext.declareTable kind fields table).get? name = table.get? name := by
  rw [BlockContext.declareTable]
  split
  · rfl
  · rename_i habsent
    have hother : name ≠ kind ++ "_descriptor" := by
      rcases hdescriptor with hne | hcontains
      · exact hne
      · rintro rfl
        exact habsent hcontains
    rw [get?_insert, if_neg hname.symm, get?_insert, if_neg hother.symm]

namespace Advances

variable {start table : DeclTable} {name : String}

theorem trans {middle : DeclTable} (h : start.Advances middle) (h' : middle.Advances table) :
    start.Advances table := by
  induction h' with
  | refl => exact h
  | callee _ name ih => exact ih.callee name
  | intrinsic _ hname ret params ih => exact ih.intrinsic hname ret params
  | structures _ hkind fields ih => exact ih.structures hkind fields

/-- What is known of a function stays the same, unless emission makes up its name. -/
theorem prototype_eq (h : start.Advances table) (hname : ¬ Synthesised name) :
    table.prototype name = start.prototype name := by
  induction h with
  | refl => rfl
  | callee _ callee ih => rw [prototype_declareOnce_unknown, ih]
  | @intrinsic table _ intrinsic hintrinsic ret params ih =>
      rw [← ih, declareFunction]
      apply prototype_congr
      have hne : intrinsic ≠ name := by
        rintro rfl
        exact hname (Or.inl hintrinsic)
      rw [get?_declareOnce, if_neg hne]
  | @structures table _ kind hkind fields ih =>
      have hstructure : ∀ other ∈ [kind ++ "_descriptor", kind ++ "_table"], name ≠ other := by
        rintro other hother rfl
        exact hname (Or.inr (List.mem_flatMap.mpr ⟨kind, hkind, hother⟩))
      rw [← ih]
      apply prototype_congr
      exact get?_declareTable (hstructure _ (by simp)) fields table
        (Or.inl (hstructure _ (by simp)))

/-- A declaration stays, unless it has the name of a descriptor table. -/
theorem get?_eq_some (h : start.Advances table) {decl : Declaration}
    (hdecl : start.get? name = some decl)
    (hname : ∀ kind ∈ descriptorKinds, name ≠ kind ++ "_table") :
    table.get? name = some decl := by
  induction h with
  | refl => exact hdecl
  | callee _ callee ih =>
      rw [get?_declareOnce, ih]
      split <;> rfl
  | intrinsic _ _ ret params ih =>
      rw [declareFunction, get?_declareOnce, ih]
      split <;> rfl
  | structures _ hkind fields ih =>
      rw [get?_declareTable (hname _ hkind) fields _ (Or.inr (by rw [contains, ih]; rfl)), ih]

end Advances

end DeclTable

/-! ## Lowering -/

/-- Diagnostics that concern the emission of one block. -/
def Diagnostic.concernsBlock : Diagnostic → Bool
  | missingTerminator _ | multipleSuccessors _ _ | cyclicCommit _ => true
  | _ => false

/-- An emission that has gone on from another. -/
structure Emission.Advances (start emission : Emission) : Prop where
  declarations : start.declarations.Advances emission.declarations
  diagnostics : ∃ added, emission.diagnostics = start.diagnostics ++ added ∧
    ∀ diagnostic ∈ added, diagnostic.concernsBlock

namespace Emission.Advances

variable {start emission : Emission}

theorem refl (emission : Emission) : emission.Advances emission :=
  ⟨.refl, [], (List.append_nil _).symm, List.forall_mem_nil _⟩

theorem trans {middle : Emission} (h : start.Advances middle) (h' : middle.Advances emission) :
    start.Advances emission := by
  obtain ⟨added, hadded, hblocks⟩ := h.diagnostics
  obtain ⟨more, hmore, hblocks'⟩ := h'.diagnostics
  refine ⟨h.declarations.trans h'.declarations, added ++ more, ?_,
    List.forall_mem_append.mpr ⟨hblocks, hblocks'⟩⟩
  rw [hmore, hadded, List.append_assoc]

end Emission.Advances

namespace Lowering

variable {start : Emission} {l : Lowering}

theorem advances_report (h : start.Advances l.emission) {diagnostic : Diagnostic}
    (hblock : diagnostic.concernsBlock) : start.Advances (l.report diagnostic).emission :=
  h.trans ⟨.refl, [diagnostic], rfl, List.forall_mem_singleton.mpr hblock⟩

theorem advances_declare (h : start.Advances l.emission) {name : String}
    (hname : IntrinsicName name) (ret : CType) (params : List CType) :
    start.Advances (l.declare name ret params).emission :=
  ⟨h.declarations.intrinsic hname ret params, h.diagnostics⟩

/-- Statements and marked addresses do not concern declarations and diagnostics. -/
theorem advances_of_eq (h : start.Advances l.emission) {l' : Lowering}
    (hdeclarations : l'.emission.declarations = l.emission.declarations)
    (hdiagnostics : l'.emission.diagnostics = l.emission.diagnostics) :
    start.Advances l'.emission :=
  ⟨hdeclarations ▸ h.declarations, hdiagnostics ▸ h.diagnostics⟩

end Lowering

namespace BlockContext

open Lowering (advances_report advances_declare advances_of_eq)

variable (context : BlockContext) (insn : Instruction) {start : Emission} {l : Lowering}

theorem advances_commit (h : start.Advances l.emission) (required : List Symbol)
    (force : Symbol → Expr → Bool) :
    start.Advances (context.commit required force l).emission := by
  have hcommitted : start.Advances (Lowering.emitAll
      { l with state := (l.state.commit required force).state }
      (l.state.commit required force).stmts).emission := advances_of_eq h rfl rfl
  rw [commit]
  split
  · exact advances_report hcommitted rfl
  · exact hcommitted

theorem advances_clobber (h : start.Advances l.emission) (symbols : List Symbol) :
    start.Advances (context.clobber symbols l).emission :=
  context.advances_commit h [] _

theorem advances_unmodeled (h : start.Advances l.emission) :
    start.Advances (context.unmodeled insn l).emission :=
  advances_of_eq (context.advances_commit h [] fun _ _ => true) rfl rfl

theorem advances_plain (h : start.Advances l.emission) :
    start.Advances (context.plain insn l).emission := by
  rw [plain]
  split
  · exact advances_of_eq (context.advances_commit h context.required ifReadsMemory) rfl rfl
  · exact advances_of_eq h rfl rfl

theorem advances_branch (h : start.Advances l.emission) (cond : CExpr) :
    start.Advances (context.branch insn cond l).emission := by
  rw [branch]
  split
  · exact advances_of_eq h rfl rfl
  · exact advances_of_eq h rfl rfl

theorem advances_finishCall (h : start.Advances l.emission) (rest : List Instruction)
    (ret : CType) (call : CExpr) :
    start.Advances (context.finishCall insn rest ret call l).emission := by
  have hcleared := context.advances_clobber h (context.config.scratchRegisters.map Symbol.reg)
  rw [finishCall]
  split
  · exact advances_of_eq hcleared rfl rfl
  · exact advances_of_eq hcleared rfl rfl

theorem advances_call (h : start.Advances l.emission) (rest : List Instruction) :
    start.Advances (context.call insn rest l).emission := by
  have hready := context.advances_commit h (context.required.filter fun symbol =>
    symbol ∉ context.config.scratchRegisters.map Symbol.reg) ifReadsMemory
  rw [call]
  dsimp only
  split
  · rename_i target _
    have hdeclared : ∀ name, start.Advances ((context.commit (context.required.filter fun symbol =>
        symbol ∉ context.config.scratchRegisters.map Symbol.reg) ifReadsMemory l).mapDeclarations
          fun table => table.declareOnce { name, kind := .function .unknown }).emission :=
      fun name => ⟨hready.declarations.callee name, hready.diagnostics⟩
    split
    · exact context.advances_finishCall insn (hdeclared _) rest _ _
    · exact context.advances_finishCall insn (hdeclared _) rest _ _
  · exact context.advances_finishCall insn hready rest _ _
  · exact context.advances_unmodeled insn hready

theorem advances_jump (h : start.Advances l.emission) :
    start.Advances (context.jump insn l).emission := by
  rw [jump]
  split
  · exact h
  · exact context.advances_unmodeled insn h
  · exact context.advances_unmodeled insn h
  · exact advances_of_eq (context.advances_commit h context.required never) rfl rfl

theorem advances_setSpecial (h : start.Advances l.emission) (reg : SpecialReg) :
    start.Advances (setSpecial insn reg l).emission :=
  advances_of_eq (advances_declare h (.setSpecial reg) .void [.int reg.bits]) rfl rfl

theorem advances_getSpecial (h : start.Advances l.emission) (reg : SpecialReg) :
    start.Advances (context.getSpecial insn reg l).emission := by
  have hdeclared := advances_declare h (.getSpecial reg) (.int reg.bits) []
  rw [getSpecial]
  split
  · exact advances_of_eq (context.advances_clobber hdeclared [.reg _]) rfl rfl
  · exact context.advances_unmodeled insn hdeclared

theorem advances_loadTable (h : start.Advances l.emission) (table : DescriptorTable) :
    start.Advances (context.loadTable insn table l).emission := by
  have hdeclared : ∀ {kind name : String}, kind ∈ descriptorKinds → IntrinsicName name →
      ∀ fields, start.Advances ((l.mapDeclarations (declareTable kind fields)).declare name .void
        [.pointer (.struct (kind ++ "_table"))]).emission := fun hkind hname fields =>
    advances_declare (l := l.mapDeclarations _)
      ⟨h.declarations.structures hkind fields, h.diagnostics⟩ hname _ _
  cases table with
  | segments =>
      simp only [loadTable]
      split
      · exact advances_of_eq (hdeclared (by decide) .loadSegments segmentFields) rfl rfl
      · exact context.advances_unmodeled insn (hdeclared (by decide) .loadSegments segmentFields)
  | interrupts =>
      simp only [loadTable]
      split
      · exact advances_of_eq (hdeclared (by decide) .loadInterrupts interruptFields) rfl rfl
      · exact context.advances_unmodeled insn
          (hdeclared (by decide) .loadInterrupts interruptFields)

theorem advances_systemLoad (h : start.Advances l.emission) (load : SystemLoad) :
    start.Advances (context.systemLoad insn load l).emission := by
  have hdeclared : ∀ {name : String}, IntrinsicName name →
      start.Advances (l.declare name .void [.word]).emission :=
    fun hname => advances_declare h hname _ _
  cases load with
  | task =>
      simp only [systemLoad]
      split
      · exact advances_of_eq (hdeclared .loadTask) rfl rfl
      · exact context.advances_unmodeled insn (hdeclared .loadTask)
  | localTable =>
      simp only [systemLoad]
      split
      · exact advances_of_eq (hdeclared .loadLocalTable) rfl rfl
      · exact context.advances_unmodeled insn (hdeclared .loadLocalTable)

theorem advances_portOut (h : start.Advances l.emission) :
    start.Advances (context.portOut insn l).emission := by
  rw [portOut]
  split
  · rename_i source _
    exact advances_of_eq (advances_declare h (.portOut source.bitSize) .void _) rfl rfl
  · exact context.advances_unmodeled insn h

theorem advances_portIn (h : start.Advances l.emission) :
    start.Advances (context.portIn insn l).emission := by
  rw [portIn]
  split
  · rename_i target _ _
    have hdeclared := advances_declare h (.portIn target.bitSize) (.int target.bitSize) [.ushort]
    exact advances_of_eq (context.advances_clobber hdeclared [.reg .eax]) rfl rfl
  · exact context.advances_unmodeled insn h

/-- Lowering an instruction declares and reports in these ways only. -/
theorem advances_lower (rest : List Instruction) (l : Lowering) :
    l.emission.Advances (context.lower insn rest l).emission := by
  have hstart := Emission.Advances.refl l.emission
  rw [lower]
  cases insn.kind with
  | jcc cc => exact context.advances_branch insn (context.advances_commit hstart _ _) _
  | loop cc => exact context.advances_branch insn (context.advances_commit hstart _ _) _
  | ret => exact advances_of_eq (context.advances_commit hstart context.required never) rfl rfl
  | call => exact context.advances_call insn hstart rest
  | jmp => exact context.advances_jump insn hstart
  | movToSpecial reg => exact advances_setSpecial insn hstart reg
  | movFromSpecial reg => exact context.advances_getSpecial insn hstart reg
  | plain => exact context.advances_plain insn hstart
  | descriptorTable table => exact context.advances_loadTable insn hstart table
  | systemLoad load => exact context.advances_systemLoad insn hstart load
  | portOut => exact context.advances_portOut insn hstart
  | portIn => exact context.advances_portIn insn hstart
  | passthrough => exact advances_of_eq hstart rfl rfl
  | unmodeled => exact context.advances_unmodeled insn hstart

theorem advances_lowerAll (insns : List Instruction) (l : Lowering) :
    l.emission.Advances (context.lowerAll insns l).emission := by
  induction insns generalizing l with
  | nil => exact .refl _
  | cons insn rest ih => exact (context.advances_lower insn rest l).trans (ih _)

end BlockContext

/-! ## Functions -/

namespace EmissionContext

variable (context : EmissionContext) (deps : Dependencies)

theorem advances_finishBlock (block : Block) (next : Option Address) (l : Lowering) :
    l.emission.Advances (context.finishBlock block next l) := by
  have hstart := Emission.Advances.refl l.emission
  rw [finishBlock]
  split
  · split
    · exact Lowering.advances_report hstart rfl
    · exact hstart
  · split
    · exact hstart
    · exact Lowering.advances_of_eq hstart rfl rfl
  · exact Lowering.advances_report hstart rfl

theorem advances_emitBlock (block : Block) (next : Option Address) (emission : Emission) :
    emission.Advances (context.emitBlock deps block next emission) := by
  let inner : BlockContext :=
    { context with block := block.address, required := deps.writes block.address }
  let opened : Lowering :=
    { emission := { emission with
        blockStarts := emission.blockStarts ++ [(block.address, emission.body.length)] },
      state := { live := context.scope.blockFrame block.address },
      successors := block.successors }
  have hopened : emission.Advances opened.emission :=
    ⟨.refl, (Emission.Advances.refl _).diagnostics⟩
  have hlowered := hopened.trans (inner.advances_lowerAll block.instructions opened)
  exact (inner.advances_commit hlowered inner.required BlockContext.never).trans
    (context.advances_finishBlock block next _)

theorem advances_emitBlocks {blocks : List Address} {start emission : Emission}
    (hemit : context.emitBlocks deps blocks start = .ok emission) : start.Advances emission := by
  induction blocks generalizing start with
  | nil =>
      cases hemit
      exact .refl _
  | cons address rest ih =>
      rw [emitBlocks] at hemit
      split at hemit
      · cases hemit
      · exact (context.advances_emitBlock deps _ _ start).trans (ih hemit)

/-- Emitting a function that succeeds emits all its blocks and then places the labels. -/
theorem emit_eq_ok {declarations : DeclTable} {blocks : List Address} {emission : Emission}
    (hemit : context.emit deps declarations blocks = .ok emission) :
    ∃ emitted, context.emitBlocks deps blocks { declarations } = .ok emitted ∧
      emission = { emitted with body := context.placeLabels emitted } := by
  rw [emit] at hemit
  cases hblocks : context.emitBlocks deps blocks { declarations } with
  | error error =>
      rw [hblocks] at hemit
      cases hemit
  | ok emitted =>
      rw [hblocks] at hemit
      cases hemit
      exact ⟨emitted, rfl, rfl⟩

/-- A whole function declares and reports in these ways only. -/
theorem advances_emit {declarations : DeclTable} {blocks : List Address} {emission : Emission}
    (hemit : context.emit deps declarations blocks = .ok emission) :
    declarations.Advances emission.declarations ∧
      ∀ diagnostic ∈ emission.diagnostics, diagnostic.concernsBlock := by
  obtain ⟨emitted, hblocks, rfl⟩ := context.emit_eq_ok deps hemit
  obtain ⟨hdeclarations, added, hadded, hconcerns⟩ := context.advances_emitBlocks deps hblocks
  refine ⟨hdeclarations, fun diagnostic hdiagnostic => hconcerns diagnostic ?_⟩
  rw [show emitted.diagnostics = added from hadded] at hdiagnostic
  exact hdiagnostic

end EmissionContext

end Uncompile
