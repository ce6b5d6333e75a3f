import Uncompile.Proofs.Dataflow.BackwardSearch
import Uncompile.Proofs.Dataflow.LivePaths

/-!
# Inputs are what paths read first

Whether a register can be read before anything has written it is searched for
backwards, up to the entry and the blocks without predecessor. Every block of
a function other than its entry has a predecessor in the function, so the entry
is the only place where values come in, and a register is an input exactly if
some path from the entry comes to a block that uses it before any block of the
path has written it.
-/

namespace Uncompile

/-! ## The blocks of a function -/

namespace Program

variable {program : Program} {entry address : Address}

theorem contains_of_mem_functionBlocks (haddress : address ∈ program.functionBlocks entry) :
    program.blocks.contains entry := by
  by_contra hnone
  rw [functionBlocks, if_neg hnone] at haddress
  exact List.not_mem_nil haddress

theorem head?_functionBlocks (haddress : address ∈ program.functionBlocks entry) :
    (program.functionBlocks entry).head? = some entry := by
  rw [functionBlocks, if_pos (contains_of_mem_functionBlocks haddress)]
  rfl

theorem mem_functionBlocks_iff (hentry : program.blocks.contains entry) :
    address ∈ program.functionBlocks entry ↔
      address ∈ closure program.blocks.keys (program.functionSuccessors entry) [entry] := by
  rw [functionBlocks, if_pos hentry, List.mem_cons, List.mem_filter]
  simp only [Bool.and_eq_true, decide_eq_true_eq, Worklist.mem_explore_iff]
  constructor
  · rintro (rfl | ⟨_, _, hmember⟩)
    · exact subset_closure (List.mem_singleton_self _)
    · exact hmember
  · intro hmember
    by_cases hsame : address = entry
    · exact Or.inl hsame
    · have hstep := (mem_closure_cases hmember).resolve_left (mt List.mem_singleton.mp hsame)
      exact Or.inr ⟨hstep.1, hsame, hmember⟩

/-- Every block of a function but its entry is a successor of one of its blocks. -/
theorem exists_previous (haddress : address ∈ program.functionBlocks entry)
    (hne : address ≠ entry) :
    ∃ previous ∈ program.functionBlocks entry, ∃ block,
      program.block? previous = some block ∧ address ∈ block.successors := by
  have hentry := contains_of_mem_functionBlocks haddress
  rw [mem_functionBlocks_iff hentry] at haddress
  obtain ⟨_, previous, hprevious, hstep⟩ :=
    (mem_closure_cases haddress).resolve_left (mt List.mem_singleton.mp hne)
  refine ⟨previous, (mem_functionBlocks_iff hentry).mpr hprevious, ?_⟩
  cases hblock : program.block? previous with
  | none => simp [functionSuccessors, hblock] at hstep
  | some block =>
      simp only [functionSuccessors, hblock] at hstep
      exact ⟨block, rfl, List.mem_of_mem_filter hstep⟩

end Program

/-! ## Paths from the entry -/

namespace Dependencies

/-- Whether a block ends in a return. -/
def returns (deps : Dependencies) (address : Address) : Bool :=
  ((deps.block? address).map BlockDeps.returns).getD false

/-- A path through the blocks of the function, given by the blocks before its
last one. -/
inductive Path (deps : Dependencies) (start : Address) : List Address → Address → Prop
  | nil : Path deps start [] start
  | concat {before : List Address} {last next : Address} :
      Path deps start before last → deps.Follows last next →
      Path deps start (before ++ [last]) next

variable {deps : Dependencies} {symbol : Symbol} {reg returnRegister : Reg}
  {candidates : List Reg} {entry address : Address}

theorem usesInput_iff {block : BlockDeps} (hblock : deps.block? address = some block) :
    usesInput returnRegister reg block ↔
      .reg reg ∈ deps.reads address ∧ ¬ (deps.returns address ∧ reg = returnRegister) := by
  simp [usesInput, reads, returns, hblock, imp_iff_not_or]

theorem mem_inferredInputs_iff (hnodup : deps.addresses.Nodup) :
    reg ∈ deps.inferredInputs candidates returnRegister ↔
      reg ∈ candidates ∧ ∃ block, .reg reg ∈ deps.reads block ∧
        ¬ (deps.returns block ∧ reg = returnRegister) ∧
        block ∈ deps.unwrittenAt (.reg reg) := by
  rw [inferredInputs, OrderedSet.mem_addAll, List.mem_flatMap]
  constructor
  · rintro (hnil | ⟨⟨address, block⟩, hentry, hreg⟩)
    · exact absurd hnil List.not_mem_nil
    · obtain ⟨hcandidate, hused⟩ := List.mem_filter.mp hreg
      have hblock := (block?_eq_some_iff hnodup).mpr hentry
      rw [Bool.and_eq_true, usesInput_iff hblock,
        reachesUnwritten_iff hnodup (mem_addresses_of_block? hblock)] at hused
      exact ⟨hcandidate, address, hused.1.1, hused.1.2, hused.2⟩
  · rintro ⟨hcandidate, address, hread, hreturn, hunwritten⟩
    cases hblock : deps.block? address with
    | none => simp [reads, hblock] at hread
    | some block =>
        refine Or.inr ⟨(address, block), mem_blocks_of_block? hblock,
          List.mem_filter.mpr ⟨hcandidate, ?_⟩⟩
        rw [Bool.and_eq_true, usesInput_iff hblock,
          reachesUnwritten_iff hnodup (mem_addresses_of_block? hblock)]
        exact ⟨⟨hread, hreturn⟩, hunwritten⟩

/-- A path with the symbol unwritten is followed block by block. -/
theorem mem_unwrittenAt_of_path (hentry : entry ∈ deps.sources) {before : List Address}
    (hpath : deps.Path entry before address)
    (hunwritten : ∀ block ∈ before, symbol ∉ deps.writes block) :
    address ∈ deps.unwrittenAt symbol := by
  induction hpath with
  | nil => exact subset_closure hentry
  | concat _ hfollows ih =>
      simp only [List.forall_mem_append, List.forall_mem_singleton] at hunwritten
      apply mem_closure_of_step (ih hunwritten.1) hfollows.2
      rw [if_neg hunwritten.2]
      exact hfollows.1

/-- Every block that is reached with the symbol unwritten has such a path. -/
theorem exists_path_of_mem_unwrittenAt (hsources : ∀ source ∈ deps.sources, source = entry)
    (hunwritten : address ∈ deps.unwrittenAt symbol) :
    ∃ before, deps.Path entry before address ∧ ∀ block ∈ before, symbol ∉ deps.writes block := by
  refine closure_induction (P := fun address => ∃ before, deps.Path entry before address ∧
    ∀ block ∈ before, symbol ∉ deps.writes block) ?_ ?_ hunwritten
  · intro source hsource
    rw [hsources source hsource]
    exact ⟨[], .nil, List.forall_mem_nil _⟩
  · rintro last next ⟨before, hpath, hbefore⟩ hnext hstep
    split at hstep
    · exact absurd hstep List.not_mem_nil
    · rename_i hlast
      refine ⟨before ++ [last], hpath.concat ⟨hstep, hnext⟩, ?_⟩
      simp only [List.forall_mem_append, List.forall_mem_singleton]
      exact ⟨hbefore, hlast⟩

end Dependencies

/-! ## Inputs of a function -/

namespace AnalysisContext

variable {context : AnalysisContext} {blocks : List Address} {deps : Dependencies}
  {entry address : Address}

theorem entry_of_collect (hcollect : context.collect blocks = .ok deps) :
    deps.entry = blocks.head?.getD 0 := by
  simp only [collect, bind, Except.bind] at hcollect
  split at hcollect
  · cases hcollect
  · cases hcollect
    rfl

theorem successors_of_collect (hcollect : context.collect blocks = .ok deps)
    (haddress : address ∈ blocks) {disassembly : Disassembly}
    (hcode : context.scope.disassembly = disassembly) {block : Block}
    (hblock : disassembly.program.block? address = some block) :
    deps.successors address = block.successors := by
  obtain ⟨found, hfound⟩ :=
    Dependencies.exists_block?_of_mem ((mem_addresses_of_collect hcollect).mpr haddress)
  obtain ⟨shown, hshown, rfl⟩ := block?_of_collect hcollect hfound
  rw [FrameScope.block?_eq (congrArg Disassembler.view hcode)] at hshown
  obtain rfl : shown = block :=
    Option.some.inj ((Disassembly.program_block? hshown).symm.trans hblock)
  rw [Dependencies.successors, hfound]
  rfl

section Inputs

variable {disassembly : Disassembly} (hcode : context.scope.disassembly = disassembly)
  (hcollect : context.collect (disassembly.program.functionBlocks entry) = .ok deps)

include hcode hcollect

/-- Values come into a function at its entry only. -/
theorem mem_sources_iff :
    address ∈ deps.sources ↔ address ∈ deps.addresses ∧ address = entry := by
  have hnodup := nodup_addresses_of_collect hcollect
  rw [Dependencies.sources, List.mem_filter]
  refine and_congr_right fun hmember => ?_
  rw [mem_addresses_of_collect hcollect] at hmember
  have hentry : deps.entry = entry := by
    rw [entry_of_collect hcollect, Program.head?_functionBlocks hmember]
    rfl
  rw [Bool.or_eq_true, decide_eq_true_eq, hentry]
  refine or_iff_left_of_imp fun hempty => ?_
  by_contra hne
  obtain ⟨previous, hprevious, block, hblock, hsuccessor⟩ := Program.exists_previous hmember hne
  have hmem : previous ∈ deps.predecessors address := by
    rw [Dependencies.mem_predecessors_iff hnodup,
      successors_of_collect hcollect hprevious hcode hblock]
    exact hsuccessor
  rw [List.isEmpty_iff.mp hempty] at hmem
  exact List.not_mem_nil hmem

theorem mem_unwrittenAt_iff {symbol : Symbol} (haddress : address ∈ deps.addresses) :
    address ∈ deps.unwrittenAt symbol ↔
      ∃ before, deps.Path entry before address ∧ ∀ p ∈ before, symbol ∉ deps.writes p := by
  constructor
  · exact Dependencies.exists_path_of_mem_unwrittenAt fun source hsource =>
      ((mem_sources_iff hcode hcollect).mp hsource).2
  · rintro ⟨before, hpath, hunwritten⟩
    have hhead := Program.head?_functionBlocks ((mem_addresses_of_collect hcollect).mp haddress)
    have hentry : entry ∈ deps.addresses :=
      (mem_addresses_of_collect hcollect).mpr (List.mem_of_mem_head? hhead)
    exact Dependencies.mem_unwrittenAt_of_path
      ((mem_sources_iff hcode hcollect).mpr ⟨hentry, rfl⟩) hpath hunwritten

/-- The register inputs that the search finds are the candidates that some path from the
entry brings unwritten to a block that uses them, where a return does not use the
return register. What every path to every reader writes is no input. -/
theorem inferredInputs_exact (candidates : List Reg) (returnRegister reg : Reg) :
    (reg ∈ deps.inferredInputs candidates returnRegister ↔
        reg ∈ candidates ∧ ∃ block, .reg reg ∈ deps.reads block ∧
          ¬ (deps.returns block ∧ reg = returnRegister) ∧
          ∃ before, deps.Path entry before block ∧ ∀ p ∈ before, .reg reg ∉ deps.writes p) ∧
      ((∀ block before, .reg reg ∈ deps.reads block → deps.Path entry before block →
          ∃ p ∈ before, .reg reg ∈ deps.writes p) →
        reg ∉ deps.inferredInputs candidates returnRegister) := by
  have hexact : reg ∈ deps.inferredInputs candidates returnRegister ↔
      reg ∈ candidates ∧ ∃ block, .reg reg ∈ deps.reads block ∧
        ¬ (deps.returns block ∧ reg = returnRegister) ∧
        ∃ before, deps.Path entry before block ∧ ∀ p ∈ before, .reg reg ∉ deps.writes p := by
    rw [Dependencies.mem_inferredInputs_iff (nodup_addresses_of_collect hcollect)]
    refine and_congr_right fun _ => exists_congr fun block => and_congr_right fun hread => ?_
    rw [mem_unwrittenAt_iff hcode hcollect (Dependencies.mem_addresses_of_mem_reads hread)]
  refine ⟨hexact, fun hwritten hinput => ?_⟩
  obtain ⟨_, block, hread, _, before, hpath, hunwritten⟩ := hexact.mp hinput
  obtain ⟨p, hp, hwrites⟩ := hwritten block before hread hpath
  exact hunwritten p hp hwrites

end Inputs

end AnalysisContext

/-! ## Two ways to a join -/

namespace BranchAndJoin

/-- `ebx` is set on both ways from `16` to `64`, and `ecx` only on the one that
passes `32`. -/
def blocks : List Block :=
  [{ address := 16
     instructions :=
      [.ofMnemonic 16 "test" [.ofReg .edx, .ofReg .edx], .ofMnemonic 18 "je" [.imm 48]]
     successors := [32, 48] },
    { address := 32
      instructions :=
        [.ofMnemonic 32 "mov" [.ofReg .ebx, .imm 1], .ofMnemonic 37 "mov" [.ofReg .ecx, .imm 1],
          .ofMnemonic 42 "jmp" [.imm 64]]
      successors := [64] },
    { address := 48
      instructions := [.ofMnemonic 48 "mov" [.ofReg .ebx, .imm 2]]
      successors := [64] },
    { address := 64
      instructions :=
        [.ofMnemonic 64 "mov" [.ofReg .esi, .ofReg .ecx],
          .ofMnemonic 66 "add" [.ofReg .esi, .ofReg .ebx], .ofMnemonic 68 "ret" []] }]

def context : AnalysisContext := .ofBlocks blocks 16

def disassembly : Disassembly := { program := blocks.foldl Program.insertBlock {} }

def deps : Dependencies :=
  (context.collect [16, 32, 48, 64]).toOption.getD { entry := 16, blocks := [] }

theorem collect_eq :
    context.collect (disassembly.program.functionBlocks 16) = .ok deps := by
  have hblocks : disassembly.program.functionBlocks 16 = [16, 32, 48, 64] := by decide +kernel
  rw [hblocks]
  exact AnalysisContext.collect_eq_ok (by decide +kernel) _

/-- `ecx` comes to its reader unwritten along `48`, and every path to `64` sets
`ebx`. The return does not make `eax` an input. -/
theorem inferredInputs_exact_join :
    deps.inferredInputs [.eax, .ebx, .ecx, .edx] .eax = [.edx, .ecx] ∧
      (∃ block before, .reg .ecx ∈ deps.reads block ∧ deps.Path 16 before block ∧
        ∀ p ∈ before, .reg .ecx ∉ deps.writes p) ∧
      ∀ before, deps.Path 16 before 64 → ∃ p ∈ before, .reg .ebx ∈ deps.writes p := by
  have hinputs : deps.inferredInputs [.eax, .ebx, .ecx, .edx] .eax = [.edx, .ecx] := by
    decide +kernel
  have hexact := fun reg =>
    (AnalysisContext.inferredInputs_exact
      (show context.scope.disassembly = disassembly from rfl) collect_eq
      [.eax, .ebx, .ecx, .edx] .eax reg).1
  refine ⟨hinputs, ?_, fun before hpath => ?_⟩
  · obtain ⟨_, block, hread, _, before, hpath, hunwritten⟩ :=
      (hexact .ecx).mp (hinputs ▸ .tail _ (.head _))
    exact ⟨block, before, hread, hpath, hunwritten⟩
  · by_contra hunwritten
    have hinput := (hexact .ebx).mpr ⟨by decide, 64, by decide +kernel, by simp, before, hpath,
      fun p hp hwrites => hunwritten ⟨p, hp, hwrites⟩⟩
    rw [hinputs] at hinput
    exact absurd hinput (by decide)

end BranchAndJoin

end Uncompile
