import Uncompile.Proofs.Dataflow.DeadWrites
import Uncompile.Proofs.Frame.Release
import Uncompile.Session

/-!
# Decompiling is scoped and atomic

Whether or not a function can be decompiled, the binding table is afterwards what
it was before. A failure leaves no other trace than a remark on blocks with an
unknown stack pointer: collecting the dependencies looks at every block that
emission will ask for, so emission does not fail once something is declared.
-/

namespace Uncompile

/-! ## Emission after analysis -/

namespace AnalysisContext

variable {context : AnalysisContext} {blocks : List Address}

theorem block?_isSome_of_collect {deps : Dependencies}
    (hcollect : context.collect blocks = .ok deps) :
    ∀ address ∈ blocks, (context.scope.block? address).isSome := by
  intro address haddress
  obtain ⟨entry, hentry, rfl⟩ :=
    List.mem_map.mp ((mem_addresses_of_collect hcollect).mpr haddress)
  obtain ⟨block, hblock, _⟩ := (collect_entries hcollect).2 entry hentry
  rw [hblock]
  rfl

theorem exists_collect (hblocks : ∀ address ∈ blocks, (context.scope.block? address).isSome) :
    ∃ deps, context.collect blocks = .ok deps := by
  have hlisted : ∀ address ∈ OrderedSet.addAll [] blocks,
      ∃ result, context.collectBlock blocks address = .ok result := by
    intro address haddress
    have hmem : address ∈ blocks := by simpa [OrderedSet.mem_addAll] using haddress
    obtain ⟨block, hblock⟩ := Option.isSome_iff_exists.mp (hblocks address hmem)
    rw [collectBlock, hblock]
    exact ⟨_, rfl⟩
  obtain ⟨results, hresults⟩ := Traversal.exists_mapM hlisted
  rw [collect, hresults]
  exact ⟨_, rfl⟩

/-- The analysis fails exactly if a listed block is missing. -/
theorem exists_analyze_iff (blocks : List Address) (f : RecoveredFunction) :
    (∃ result, context.analyze blocks f = .ok result) ↔
      ∀ address ∈ blocks, (context.scope.block? address).isSome := by
  constructor
  · rintro ⟨result, hresult⟩
    rw [analyze] at hresult
    cases hcollect : context.collect blocks with
    | error error =>
        rw [hcollect] at hresult
        cases hresult
    | ok deps => exact block?_isSome_of_collect hcollect
  · intro hblocks
    obtain ⟨deps, hcollect⟩ := exists_collect hblocks
    rw [analyze, hcollect]
    exact ⟨_, rfl⟩

end AnalysisContext

/-- Emission succeeds where all listed blocks are there. -/
theorem EmissionContext.exists_emit (context : EmissionContext) (deps : Dependencies)
    (declarations : DeclTable) {blocks : List Address}
    (hblocks : ∀ address ∈ blocks, (context.scope.block? address).isSome) :
    ∃ emission, context.emit deps declarations blocks = .ok emission := by
  have hemitBlocks : ∀ start, ∃ emission, context.emitBlocks deps blocks start = .ok emission := by
    induction blocks with
    | nil => exact fun start => ⟨start, rfl⟩
    | cons address rest ih =>
        intro start
        obtain ⟨hfirst, hrest⟩ := List.forall_mem_cons.mp hblocks
        obtain ⟨block, hblock⟩ := Option.isSome_iff_exists.mp hfirst
        rw [emitBlocks, hblock]
        exact ih hrest _
  obtain ⟨emission, hemission⟩ := hemitBlocks { declarations }
  rw [emit, hemission]
  exact ⟨_, rfl⟩

/-! ## Sessions -/

namespace Session

variable (session : Session) (entry : Address)

/-- The frame scope in which a function is decompiled. -/
def scopeOf (session : Session) (entry : Address) : FrameScope :=
  .install session.disassembly entry (session.disassembly.functionBlocks entry)
    session.config.frameRegister

/-- The session after the frame scope has been released and remarked on. -/
def framed (session : Session) (entry : Address) : Session :=
  { session with disassembly := (session.scopeOf entry).release }.report
    (frameDiagnostics (session.scopeOf entry))

/-- All blocks of the function at an entry are there while it is decompiled. -/
def Available (session : Session) (entry : Address) : Prop :=
  (session.disassembly.block? entry).isSome ∧
    ∀ address ∈ session.disassembly.functionBlocks entry,
      ((session.scopeOf entry).block? address).isSome

/-- The blocks of a program are there all the time, unless they are withheld. -/
theorem available_iff {disassembly : Disassembly} (hcode : session.disassembly = disassembly) :
    session.Available entry ↔ (disassembly.block? entry).isSome ∧
      ∀ address ∈ disassembly.program.functionBlocks entry,
        (disassembly.block? address).isSome := by
  rw [Available, scopeOf, hcode, FrameScope.block?_install]
  exact Iff.rfl

/-- Drafting fails in the analysis or not at all. -/
theorem draft_cases (scope : FrameScope) (blocks : List Address) :
    (∃ error, session.draft scope blocks =
        .error { error, declarations := session.declarations } ∧
      ¬ ∀ address ∈ blocks, (scope.block? address).isSome) ∨
    ∃ draft, session.draft scope blocks = .ok draft ∧
      ∀ address ∈ blocks, (scope.block? address).isSome := by
  let context : AnalysisContext :=
    { scope, declarations := session.declarations, config := session.config }
  let f : RecoveredFunction :=
    { name := session.disassembly.nameOf scope.entry session.config.externPrefix,
      entry := scope.entry }
  have hiff := context.exists_analyze_iff blocks f
  cases hanalyze : context.analyze blocks f with
  | error error =>
      left
      refine ⟨error, ?_, fun hblocks => ?_⟩
      · simp only [draft]
        rw [hanalyze]
      · obtain ⟨result, hresult⟩ := hiff.mpr hblocks
        cases hanalyze.symm.trans hresult
  | ok result =>
      right
      have hblocks := hiff.mp ⟨result, hanalyze⟩
      obtain ⟨emission, hemission⟩ := EmissionContext.exists_emit
        { scope, config := session.config } result.1 session.declarations hblocks
      refine ⟨{
        function := { result.2 with body := emission.body },
        emission,
        evidence := scope.program.returnEvidence scope.entry session.config.pointerSize },
        ?_, hblocks⟩
      simp only [draft]
      rw [hanalyze]
      dsimp only
      rw [hemission]

/-- What a drafted function is made of: the dependencies of its blocks, and what is
emitted once dead writes are dropped from them. -/
theorem draft_eq_ok {scope : FrameScope} {blocks : List Address} {draft : Draft}
    (hdraft : session.draft scope blocks = .ok draft) :
    ∃ deps, AnalysisContext.collect
        { scope, declarations := session.declarations, config := session.config } blocks =
          .ok deps ∧
      EmissionContext.emit { scope, config := session.config } deps.eliminateDeadWrites
        session.declarations blocks = .ok draft.emission ∧
      draft.function =
        { RecoveredFunction.assignInputs
            { name := session.disassembly.nameOf scope.entry session.config.externPrefix,
              entry := scope.entry }
            session.config (deps.inferredInputs session.config.scratchRegisters
              session.config.returnRegister) with body := draft.emission.body } ∧
      draft.evidence =
        scope.program.returnEvidence scope.entry session.config.pointerSize := by
  cases hcollect : AnalysisContext.collect
      { scope, declarations := session.declarations, config := session.config } blocks with
  | error error =>
      simp only [Session.draft, AnalysisContext.analyze, hcollect] at hdraft
      cases hdraft
  | ok deps =>
      refine ⟨deps, rfl, ?_⟩
      simp only [Session.draft, AnalysisContext.analyze, hcollect] at hdraft
      cases hemit : EmissionContext.emit { scope, config := session.config }
          deps.eliminateDeadWrites session.declarations blocks with
      | error error =>
          simp only [bind, Except.bind, pure, Except.pure, hemit] at hdraft
          cases hdraft
      | ok emission =>
          simp only [bind, Except.bind, pure, Except.pure, hemit] at hdraft
          cases hdraft
          exact ⟨rfl, rfl, rfl⟩

/-- What decompiling a function comes to. -/
theorem decompile_cases :
    (session.decompile entry = (session, .error (.unknownEntry entry)) ∧
      ¬ session.Available entry) ∨
    (∃ error, session.decompile entry = (session.framed entry, .error error) ∧
      ¬ session.Available entry) ∨
    ∃ draft, session.Available entry ∧
      session.draft (session.scopeOf entry)
        (session.disassembly.functionBlocks entry) = .ok draft ∧
      session.decompile entry =
        (({ session.framed entry with
            declarations := draft.emission.declarations.insert
              (settle session.config draft).1.declaration,
            functions := session.functions.insert entry (settle session.config draft).1 }).report
          (draft.emission.diagnostics ++ (settle session.config draft).2),
          .ok (settle session.config draft).1) := by
  rw [decompile]
  split
  · rename_i hnone
    refine Or.inl ⟨rfl, fun havailable => ?_⟩
    have hsome := havailable.1
    rw [Option.isNone_iff_eq_none.mp hnone] at hsome
    exact Bool.false_ne_true hsome
  · rename_i hvisible
    right
    rcases session.draft_cases (session.scopeOf entry)
      (session.disassembly.functionBlocks entry) with ⟨error, hdraft, hmissing⟩ |
        ⟨draft, hdraft, hblocks⟩
    · left
      refine ⟨error, ?_, fun havailable => hmissing ?_⟩
      · simp only [scopeOf] at hdraft
        simp only [hdraft, report, List.append_nil]
        rfl
      · exact havailable.2
    · right
      refine ⟨draft, ⟨?_, ?_⟩, hdraft, ?_⟩
      · simpa [Option.isSome_iff_ne_none] using hvisible
      · exact hblocks
      · simp only [scopeOf] at hdraft
        simp only [hdraft]
        rfl

/-- A function can be decompiled exactly if all its blocks are there. -/
theorem exists_decompile_iff :
    (∃ f, (session.decompile entry).2 = .ok f) ↔ session.Available entry := by
  rcases session.decompile_cases entry with ⟨heq, hmissing⟩ | ⟨error, heq, hmissing⟩ |
    ⟨draft, havailable, _, heq⟩
  · simp [heq, hmissing]
  · simp [heq, hmissing]
  · simp [heq, havailable]

/-- What decompiling a function comes to when it succeeds. -/
theorem decompile_eq_ok {f : RecoveredFunction} (hf : (session.decompile entry).2 = .ok f) :
    ∃ draft, session.draft (session.scopeOf entry)
        (session.disassembly.functionBlocks entry) = .ok draft ∧
      (settle session.config draft).1 = f ∧
      (session.decompile entry).1 =
        ({ session.framed entry with
            declarations := draft.emission.declarations.insert f.declaration,
            functions := session.functions.insert entry f }).report
          (draft.emission.diagnostics ++ (settle session.config draft).2) := by
  rcases session.decompile_cases entry with ⟨heq, _⟩ | ⟨_, heq, _⟩ | ⟨draft, _, hdraft, heq⟩
  · rw [heq] at hf
    cases hf
  · rw [heq] at hf
    cases hf
  · obtain rfl : (settle session.config draft).1 = f := by
      rw [heq] at hf
      exact Except.ok.inj hf
    exact ⟨draft, hdraft, rfl, by rw [heq]⟩

/-- The disassembler is handed back with its table. -/
theorem disassembly_decompile :
    (session.decompile entry).1.disassembly = session.disassembly := by
  have hrelease := FrameScope.release_install session.disassembly entry
    (session.disassembly.functionBlocks entry) session.config.frameRegister
  rcases session.decompile_cases entry with ⟨heq, _⟩ | ⟨error, heq, _⟩ | ⟨draft, _, _, heq⟩
  · rw [heq]
  · rw [heq]
    exact hrelease
  · rw [heq]
    exact hrelease

/-- Decompiling a function is scoped and atomic, whatever the disassembler answers. The
disassembler is handed back as it was: its binding table has the entries it had before,
and no other. If the function cannot be decompiled, neither the declarations nor the
functions found so far have changed, and at most one remark has been made, on blocks of
the function with an unknown stack pointer. -/
theorem decompile_atomic :
    (session.decompile entry).1.disassembly = session.disassembly ∧
      ∀ error, (session.decompile entry).2 = .error error →
        (session.decompile entry).1.declarations = session.declarations ∧
        (session.decompile entry).1.functions = session.functions ∧
        ((session.decompile entry).1.diagnostics = session.diagnostics ∨
          ∃ blocks, (session.decompile entry).1.diagnostics =
            session.diagnostics ++ [.unresolvedFrame entry blocks]) := by
  refine ⟨session.disassembly_decompile entry, ?_⟩
  intro error herror
  rcases session.decompile_cases entry with ⟨heq, _⟩ | ⟨_, heq, _⟩ | ⟨draft, _, _, heq⟩
  · rw [heq]
    exact ⟨rfl, rfl, Or.inl rfl⟩
  · rw [heq]
    refine ⟨rfl, rfl, ?_⟩
    simp only [framed, report, frameDiagnostics, scopeOf, FrameScope.entry_install]
    split
    · exact Or.inl (List.append_nil _)
    · exact Or.inr ⟨_, rfl⟩
  · rw [heq] at herror
    cases herror

end Session

/-! ## A withheld branch -/

namespace WithheldBranch

def branching : Block :=
  { address := 16
    instructions := [.ofMnemonic 16 "push" [.ofReg .ebp], .ofMnemonic 17 "jz" [.imm 48]]
    successors := [48, 32] }

def returning (address : Address) : Block :=
  { address, instructions := [.ofMnemonic address "ret" []] }

/-- The target of the branch is withheld, and something is known at the block
behind it. -/
def disassembly : Disassembly :=
  { program :=
      { [branching, returning 32, returning 48].foldl Program.insertBlock {} with
        bindings := SortedMap.empty.insert 32 (SortedMap.empty.insert (.reg .eax) (.const 7)) },
    withheld := [48] }

def session : Session := { disassembly := disassembly }

theorem not_available : ¬ session.Available 16 := by
  rw [session.available_iff 16 rfl]
  decide +kernel

/-- Decompiling fails and leaves everything as it was. -/
theorem decompile_atomic_withheld :
    (∃ error, (session.decompile 16).2 = .error error) ∧
      (session.decompile 16).1.disassembly = session.disassembly ∧
      (session.decompile 16).1.declarations = session.declarations ∧
      (session.decompile 16).1.functions = session.functions := by
  obtain ⟨hdisassembly, hfailed⟩ := session.decompile_atomic 16
  have hfails : ∃ error, (session.decompile 16).2 = .error error := by
    cases hresult : (session.decompile 16).2 with
    | error error => exact ⟨error, rfl⟩
    | ok f => exact absurd ((session.exists_decompile_iff 16).mp ⟨f, hresult⟩) not_available
  obtain ⟨error, herror⟩ := hfails
  obtain ⟨hdeclarations, hfunctions, _⟩ := hfailed error herror
  exact ⟨⟨error, herror⟩, hdisassembly, hdeclarations, hfunctions⟩

end WithheldBranch

end Uncompile
