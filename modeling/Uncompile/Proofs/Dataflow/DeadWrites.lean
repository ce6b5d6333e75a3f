import Uncompile.Proofs.C.Semantics
import Uncompile.Proofs.Dataflow.Execution
import Uncompile.Proofs.Dataflow.Sweep
import Uncompile.Proofs.Traversal

/-!
# Dead writes are never seen

Inside a block, two states that differ in one symbol show the same until the
symbol is read, and agree again once it is written. Along the blocks, a symbol
that is not live at the end of a block is not read by any successor, and is
written there or still not live at its end. So what dead-write elimination drops
makes no difference to anything an execution shows, however long it runs.
-/

namespace Uncompile

/-! ## The dependencies of a block -/

theorem Effect.isSome_get?_toBinding {effect : Effect} {symbol : Symbol}
    (hsymbol : symbol ∈ effect.filterMap fun entry => entry.1.asSymbol?) :
    (effect.toBinding.get? symbol).isSome := by
  induction effect using List.reverseRecOn with
  | nil => exact absurd hsymbol List.not_mem_nil
  | append_singleton rest entry ih =>
      rw [Effect.get?_toBinding_concat]
      split
      · rfl
      · rename_i hlocation
        rw [List.filterMap_append, List.mem_append] at hsymbol
        refine ih (hsymbol.resolve_right fun hentry => hlocation ?_)
        obtain ⟨other, hother, hsome⟩ := List.mem_filterMap.mp hentry
        obtain rfl := List.mem_singleton.mp hother
        cases hcase : other.1 <;> simp_all [Location.asSymbol?]

namespace AnalysisContext

variable {context : AnalysisContext} {deps : BlockDeps} {insn : Instruction} {symbol : Symbol}

theorem mem_reads_addInstruction (hmodeled : insn.Modeled) :
    symbol ∈ (context.addInstruction deps insn).reads ↔
      symbol ∈ deps.reads ∨ symbol ∈ effectReads insn ++ context.controlReads insn ∧
        context.tracks symbol ∧ symbol ∉ deps.writes := by
  simp only [addInstruction, hmodeled.noCall, if_false, addWrites, addReads, OrderedSet.mem_addAll,
    List.mem_filter, Bool.and_eq_true, decide_eq_true_eq]

theorem mem_writes_addInstruction (hmodeled : insn.Modeled) :
    symbol ∈ (context.addInstruction deps insn).writes ↔
      symbol ∈ deps.writes ∨ symbol ∈ insn.effect.filterMap (fun entry => entry.1.asSymbol?) ∧
        context.tracks symbol := by
  simp only [addInstruction, hmodeled.noCall, if_false, addWrites, addReads, OrderedSet.mem_addAll,
    List.mem_filter]

theorem mem_reads_foldl {insns : List Instruction} (hmodeled : ∀ insn ∈ insns, insn.Modeled)
    (hsymbol : symbol ∈ deps.reads) : symbol ∈ (insns.foldl context.addInstruction deps).reads := by
  induction insns generalizing deps with
  | nil => exact hsymbol
  | cons insn rest ih =>
      obtain ⟨hinsn, hrest⟩ := List.forall_mem_cons.mp hmodeled
      exact ih hrest ((mem_reads_addInstruction hinsn).mpr (Or.inl hsymbol))

/-- What instructions do not assign was written before them. -/
theorem mem_writes_of_unwritten {insns : List Instruction}
    (hmodeled : ∀ insn ∈ insns, insn.Modeled)
    (hunwritten : ∀ insn ∈ insns, symbol ∉ insn.effect.filterMap fun entry => entry.1.asSymbol?)
    (hsymbol : symbol ∈ (insns.foldl context.addInstruction deps).writes) :
    symbol ∈ deps.writes := by
  induction insns generalizing deps with
  | nil => exact hsymbol
  | cons insn rest ih =>
      obtain ⟨hinsn, hrest⟩ := List.forall_mem_cons.mp hmodeled
      obtain ⟨hfirst, hlater⟩ := List.forall_mem_cons.mp hunwritten
      exact ((mem_writes_addInstruction hinsn).mp (ih hrest hlater hsymbol)).resolve_right
        fun hassigned => hfirst hassigned.1

/-- A block writes only what the analysis tracks. -/
theorem tracks_of_mem_writes_foldl {insns : List Instruction}
    (hmodeled : ∀ insn ∈ insns, insn.Modeled)
    (hdeps : ∀ symbol ∈ deps.writes, context.tracks symbol)
    (hsymbol : symbol ∈ (insns.foldl context.addInstruction deps).writes) :
    context.tracks symbol := by
  induction insns generalizing deps with
  | nil => exact hdeps symbol hsymbol
  | cons insn rest ih =>
      obtain ⟨hinsn, hrest⟩ := List.forall_mem_cons.mp hmodeled
      refine ih hrest (fun other hother => ?_) hsymbol
      exact ((mem_writes_addInstruction hinsn).mp hother).elim (hdeps other) And.right

end AnalysisContext

/-- No instruction assigns the symbol after one at which control can leave the block. In a
block that is left at its last instruction only, this holds of every symbol. -/
def WritesBeforeLeaving (symbol : Symbol) (insns : List Instruction) : Prop :=
  insns.Pairwise fun insn later =>
    insn.canLeave → symbol ∉ later.effect.filterMap fun entry => entry.1.asSymbol?

instance (symbol : Symbol) (insns : List Instruction) :
    Decidable (WritesBeforeLeaving symbol insns) :=
  inferInstanceAs (Decidable (List.Pairwise _ insns))

/-- Two states that differ in one symbol, and in no symbol once the block has
written it. -/
structure AgreeUntilWritten (symbol : Symbol) (deps : BlockDeps) (left right : MachineState) :
    Prop extends AgreeExcept symbol left right where
  written : symbol ∈ deps.writes → left.symbol symbol = right.symbol symbol

namespace AgreeUntilWritten

open AnalysisContext

variable {context : AnalysisContext} {deps : BlockDeps} {symbol : Symbol}
  {left right : MachineState}

/-- One instruction shows the same and leads to the same place, unless it reads the
symbol. -/
theorem step (h : AgreeUntilWritten symbol deps left right) (world : World)
    (htracks : context.tracks symbol) {insn : Instruction} (hmodeled : insn.Modeled)
    (hunread : symbol ∉ (context.addInstruction deps insn).reads) :
    insn.leaves (left.valuation world) = insn.leaves (right.valuation world) ∧
      left.events world context.config.returnRegister insn =
        right.events world context.config.returnRegister insn ∧
      AgreeUntilWritten symbol (context.addInstruction deps insn) (left.exec world insn.effect)
        (right.exec world insn.effect) := by
  by_cases hwritten : symbol ∈ deps.writes
  · -- the states are the same already
    obtain rfl := h.eq_of_symbol (h.written hwritten)
    exact ⟨rfl, rfl, ⟨rfl, fun _ _ => rfl⟩, fun _ => rfl⟩
  · have hread : symbol ∉ effectReads insn ++ context.controlReads insn := fun hread =>
      hunread ((mem_reads_addInstruction hmodeled).mpr (Or.inr ⟨hread, htracks, hwritten⟩))
    have heffect : symbol ∉ effectReads insn := fun hmem => hread (List.mem_append_left _ hmem)
    have hcontrol : symbol ∉ context.controlReads insn := fun hmem =>
      hread (List.mem_append_right _ hmem)
    refine ⟨h.leaves_eq world context hmodeled heffect hcontrol,
      h.events_eq world context hmodeled hread, h.exec world heffect, fun hnow => ?_⟩
    have hentry := (((mem_writes_addInstruction hmodeled).mp hnow).resolve_left hwritten).1
    exact h.symbol_exec_eq world heffect (Or.inr (Effect.isSome_get?_toBinding hentry))

/-- A whole block shows the same, unless it reads the symbol before writing it. If it
does not write the symbol after control could leave it, the states at the place where
control does leave agree on the symbol if the block writes it at all. -/
theorem traverse (h : AgreeUntilWritten symbol deps left right) (world : World)
    (htracks : context.tracks symbol) {insns : List Instruction}
    (hmodeled : ∀ insn ∈ insns, insn.Modeled) (hleaving : WritesBeforeLeaving symbol insns)
    (hunread : symbol ∉ (insns.foldl context.addInstruction deps).reads) :
    (left.traverse world context.config.returnRegister insns).1 =
        (right.traverse world context.config.returnRegister insns).1 ∧
      AgreeUntilWritten symbol (insns.foldl context.addInstruction deps)
        (left.traverse world context.config.returnRegister insns).2
        (right.traverse world context.config.returnRegister insns).2 := by
  induction insns generalizing deps left right with
  | nil => exact ⟨rfl, h⟩
  | cons insn rest ih =>
      obtain ⟨hinsn, hrest⟩ := List.forall_mem_cons.mp hmodeled
      obtain ⟨hlater, hleaving⟩ := List.pairwise_cons.mp hleaving
      rw [List.foldl_cons] at hunread ⊢
      obtain ⟨hleaves, hevents, hnext⟩ :=
        h.step world htracks hinsn fun hread => hunread (mem_reads_foldl hrest hread)
      simp only [MachineState.traverse, hleaves, hevents]
      split
      · rename_i hleave
        refine ⟨rfl, hnext.toAgreeExcept, fun hwritten => hnext.written ?_⟩
        exact mem_writes_of_unwritten hrest
          (fun later hmem => hlater later hmem (Instruction.canLeave_of_leaves hleave)) hwritten
      · obtain ⟨htrace, hend⟩ := ih hnext hrest hleaving hunread
        exact ⟨congrArg (_ ++ ·) htrace, hend⟩

end AgreeUntilWritten

/-! ## The dependencies of a function -/

namespace Dependencies

variable {deps : Dependencies} {symbol : Symbol} {address : Address}

theorem mem_tracked_of_mem_writes {block : BlockDeps} (hblock : deps.block? address = some block)
    (hsymbol : symbol ∈ block.writes) : symbol ∈ deps.tracked :=
  OrderedSet.mem_addAll.mpr (Or.inr (List.mem_flatMap.mpr
    ⟨_, mem_blocks_of_block? hblock, List.mem_append_right _ hsymbol⟩))

/-- Elimination keeps of a block's writes what is live at its end, in their order. -/
theorem writes_eliminateDeadWrites :
    deps.eliminateDeadWrites.writes address =
      (deps.writes address).filter fun symbol => symbol ∈ deps.liveOut address := by
  simp only [writes, block?, eliminateDeadWrites, List.find?_map, Function.comp_def]
  cases hfind : deps.blocks.find? fun entry => entry.1 = address with
  | none => simp
  | some entry =>
      have haddress : entry.1 = address := by simpa using List.find?_some hfind
      simp only [haddress, Option.map_some, Option.getD_some]
      rfl

theorem mem_writes_eliminateDeadWrites :
    symbol ∈ deps.eliminateDeadWrites.writes address ↔
      symbol ∈ deps.writes address ∧ symbol ∈ deps.liveOut address := by
  rw [writes_eliminateDeadWrites, List.mem_filter, decide_eq_true_eq]

/-- A symbol is dead at the start of a block of the function: the block does not
read it, and writes it unless it is dead at the block's end too. -/
structure DeadAt (deps : Dependencies) (symbol : Symbol) (address : Address) : Prop where
  member : address ∈ deps.addresses
  unread : symbol ∉ deps.reads address
  dead : symbol ∈ deps.writes address ∨ address ∉ deps.liveBlocks symbol

/-- What is dead at the end of a block is dead at the start of its successors. -/
theorem deadAt_of_notMem_liveBlocks {block : BlockDeps}
    (hblock : deps.block? address = some block)
    (hescapes : block.escapes = block.successors.any fun next => next ∉ deps.addresses)
    (htracked : symbol ∈ deps.tracked) (hdead : address ∉ deps.liveBlocks symbol) {next : Address}
    (hnext : next ∈ block.successors) : deps.DeadAt symbol next := by
  have hmem := mem_blocks_of_block? hblock
  have hsuccessor : next ∈ deps.successors address := by simpa [successors, hblock] using hnext
  constructor
  · by_contra hout
    refine hdead (mem_liveBlocks_of_liveAtOnce hmem ?_)
    rw [liveAtOnce, Bool.or_eq_true, Bool.and_eq_true, hescapes]
    exact Or.inl ⟨List.any_eq_true.mpr ⟨next, hnext, decide_eq_true hout⟩,
      decide_eq_true htracked⟩
  · exact fun hread => hdead (mem_liveBlocks_of_reads hsuccessor hread)
  · by_contra hlive
    simp only [not_or, not_not] at hlive
    exact hdead (mem_liveBlocks_of_next hlive.2 hlive.1 hsuccessor)

end Dependencies

/-! ## Collected dependencies -/

namespace AnalysisContext

variable {context : AnalysisContext} {blocks : List Address} {deps : Dependencies}

/-- What is collected holds every listed block once, with its dependencies. -/
theorem collect_entries (hcollect : context.collect blocks = .ok deps) :
    deps.addresses = OrderedSet.addAll [] blocks ∧ ∀ entry ∈ deps.blocks, ∃ block,
      context.scope.block? entry.1 = some block ∧ entry.2 = context.blockDeps blocks block := by
  simp only [collect, bind, Except.bind] at hcollect
  split at hcollect
  · cases hcollect
  · rename_i collected hmap
    cases hcollect
    have hpairs := Traversal.forall₂_of_mapM hmap
    simp only [Dependencies.addresses]
    generalize OrderedSet.addAll [] blocks = addresses at hpairs ⊢
    clear hmap
    induction hpairs with
    | nil => exact ⟨rfl, List.forall_mem_nil _⟩
    | @cons address entry rest others hentry _ ih =>
        rw [collectBlock] at hentry
        cases hblock : context.scope.block? address with
        | none => simp [hblock] at hentry
        | some block =>
            simp only [hblock, Except.ok.injEq] at hentry
            subst hentry
            exact ⟨congrArg (address :: ·) ih.1,
              List.forall_mem_cons.mpr ⟨⟨block, hblock, rfl⟩, ih.2⟩⟩

theorem collect_eq_ok (hok : (context.collect blocks).toOption.isSome) (otherwise : Dependencies) :
    context.collect blocks = .ok ((context.collect blocks).toOption.getD otherwise) := by
  cases hcollect : context.collect blocks with
  | error cause =>
      rw [hcollect] at hok
      exact absurd hok Bool.false_ne_true
  | ok found => rfl

theorem nodup_addresses_of_collect (hcollect : context.collect blocks = .ok deps) :
    deps.addresses.Nodup := by
  rw [(collect_entries hcollect).1]
  exact OrderedSet.nodup_addAll List.nodup_nil blocks

theorem mem_addresses_of_collect (hcollect : context.collect blocks = .ok deps)
    {address : Address} : address ∈ deps.addresses ↔ address ∈ blocks := by
  rw [(collect_entries hcollect).1, OrderedSet.mem_addAll]
  simp

theorem block?_of_collect (hcollect : context.collect blocks = .ok deps) {address : Address}
    {found : BlockDeps} (hfound : deps.block? address = some found) :
    ∃ block, context.scope.block? address = some block ∧
      found = context.blockDeps blocks block :=
  (collect_entries hcollect).2 _ (Dependencies.mem_blocks_of_block? hfound)

theorem escapes_blockDeps (hcollect : context.collect blocks = .ok deps) (block : Block) :
    (context.blockDeps blocks block).escapes =
      (context.blockDeps blocks block).successors.any fun next => next ∉ deps.addresses := by
  simp only [blockDeps, mem_addresses_of_collect hcollect]

/-- The function has only modeled instructions. -/
def Modeled (context : AnalysisContext) (blocks : List Address) : Prop :=
  ∀ address ∈ blocks, ∀ block, context.scope.block? address = some block →
    ∀ insn ∈ block.instructions, insn.Modeled

/-- No block of the function assigns the symbol after control could leave it. -/
def WritesBeforeLeaving (context : AnalysisContext) (blocks : List Address) (symbol : Symbol) :
    Prop :=
  ∀ address ∈ blocks, ∀ block, context.scope.block? address = some block →
    Uncompile.WritesBeforeLeaving symbol block.instructions

/-- Two executions that come to a block with states differing in a symbol that is
dead there show the same. -/
theorem execution_eq_of_deadAt (hcollect : context.collect blocks = .ok deps)
    (hmodeled : context.Modeled blocks) {symbol : Symbol}
    (hleaving : context.WritesBeforeLeaving blocks symbol) (htracks : context.tracks symbol)
    (htracked : symbol ∈ deps.tracked) (world : World) (control : Control) (steps : Nat)
    (history : History) {address : Address} (hdead : deps.DeadAt symbol address)
    {left right : MachineState} (hstates : AgreeExcept symbol left right) :
    execution context.scope.block? world context.config.returnRegister control steps history
        address left =
      execution context.scope.block? world context.config.returnRegister control steps history
        address right := by
  induction steps generalizing history address left right with
  | zero => rfl
  | succ steps ih =>
      obtain ⟨found, hfound⟩ := Dependencies.exists_block?_of_mem hdead.member
      obtain ⟨block, hblock, rfl⟩ := block?_of_collect hcollect hfound
      have hmember := (mem_addresses_of_collect hcollect).mp hdead.member
      have hunread : symbol ∉ (block.instructions.foldl context.addInstruction {}).reads := by
        have hreads := hdead.unread
        rw [Dependencies.reads, hfound] at hreads
        exact hreads
      have hstart : AgreeUntilWritten symbol {} left right :=
        ⟨hstates, fun hmem => absurd hmem List.not_mem_nil⟩
      obtain ⟨htrace, hend⟩ := hstart.traverse world htracks (hmodeled address hmember block hblock)
        (hleaving address hmember block hblock) hunread
      simp only [execution, hblock, htrace]
      split
      · rfl
      · rename_i next _
        split
        · rename_i hnext
          rcases hdead.dead with hwritten | hlive
          · -- the block writes the symbol, so its end states are the same
            rw [Dependencies.writes, hfound] at hwritten
            rw [hend.eq_of_symbol (hend.written hwritten)]
          · exact ih _ (Dependencies.deadAt_of_notMem_liveBlocks hfound
              (escapes_blockDeps hcollect block) htracked hlive hnext) hend.toAgreeExcept
        · rfl

/-- A write that dead-write elimination drops is never seen, if no block writes the symbol
behind a place where control can leave it: executions that go on from the block with the
same successor, in states that differ only in what it wrote, show the same stores and
outputs, branches and loops, indirect jumps and returned values, and run the same blocks. -/
theorem execution_eq_of_dropped (hcollect : context.collect blocks = .ok deps)
    (hmodeled : context.Modeled blocks) {symbol : Symbol} {address next : Address}
    (hleaving : context.WritesBeforeLeaving blocks symbol) (hwrites : symbol ∈ deps.writes address)
    (hdropped : symbol ∉ deps.eliminateDeadWrites.writes address)
    (hnext : next ∈ deps.successors address) {left right : MachineState}
    (hstates : AgreeExcept symbol left right) (world : World) (control : Control) (steps : Nat)
    (history : History) :
    execution context.scope.block? world context.config.returnRegister control steps history
        next left =
      execution context.scope.block? world context.config.returnRegister control steps history
        next right := by
  cases hfound : deps.block? address with
  | none => simp [Dependencies.writes, hfound] at hwrites
  | some found =>
      have hmember : address ∈ blocks := (mem_addresses_of_collect hcollect).mp
        (List.mem_map.mpr ⟨_, Dependencies.mem_blocks_of_block? hfound, rfl⟩)
      obtain ⟨block, hblock, rfl⟩ := block?_of_collect hcollect hfound
      have hwritten : symbol ∈ (context.blockDeps blocks block).writes := by
        rw [Dependencies.writes, hfound] at hwrites
        exact hwrites
      have htracks : context.tracks symbol :=
        tracks_of_mem_writes_foldl (hmodeled address hmember block hblock)
          (List.forall_mem_nil _) hwritten
      have htracked := Dependencies.mem_tracked_of_mem_writes hfound hwritten
      have hdead : address ∉ deps.liveBlocks symbol := fun hlive =>
        hdropped (Dependencies.mem_writes_eliminateDeadWrites.mpr ⟨hwrites,
          (Dependencies.mem_liveOut_iff_mem_liveBlocks
            (nodup_addresses_of_collect hcollect)).mpr hlive⟩)
      have hsuccessor : next ∈ (context.blockDeps blocks block).successors := by
        rw [Dependencies.successors, hfound] at hnext
        exact hnext
      exact execution_eq_of_deadAt hcollect hmodeled hleaving htracks htracked world control steps
        history (Dependencies.deadAt_of_notMem_liveBlocks hfound (escapes_blockDeps hcollect block)
          htracked hdead hsuccessor) hstates

/-- The analysis of a function of a program made of the given blocks, before anything is
known of its frame. -/
def ofBlocks (blocks : List Block) (entry : Address) : AnalysisContext :=
  { scope :=
      { disassembly := (blocks.foldl Program.insertBlock {}).disassembler
        entry
        frameRegister := .ebp }
    declarations := {}
    config := {} }

/-- What can be asked for of such a program has the instructions of one of the blocks. -/
theorem exists_block_ofBlocks {blocks : List Block} {entry address : Address} {block : Block}
    (hblock : (ofBlocks blocks entry).scope.block? address = some block) :
    ∃ given ∈ blocks, given.instructions = block.instructions := by
  obtain ⟨given, hgiven, rfl⟩ := Option.map_eq_some_iff.mp hblock
  have hfold : ∀ (blocks : List Block) (program : Program),
      (blocks.foldl Program.insertBlock program).block? address = some given →
        given ∈ blocks ∨ program.block? address = some given := by
    intro blocks
    induction blocks with
    | nil => exact fun _ h => .inr h
    | cons first rest ih =>
        intro program h
        rcases ih _ h with hmem | hfound
        · exact .inl (List.mem_cons_of_mem _ hmem)
        · rw [Program.block?, Program.insertBlock, SortedMap.get?_insert] at hfound
          split at hfound
          · cases hfound
            exact .inl List.mem_cons_self
          · exact .inr hfound
  have hshown : (blocks.foldl Program.insertBlock {}).block? address = some given := hgiven
  refine ⟨given, (hfold blocks {} hshown).resolve_right fun hempty => ?_, rfl⟩
  rw [Program.block?, SortedMap.get?_empty] at hempty
  cases hempty

end AnalysisContext

/-! ## A loop that hides a write -/

namespace CountedStores

open CWorld (silent)

/-- The first block sets `ebx`, and the loop sets it again before anything reads
it. -/
def blocks : List Block :=
  [{ address := 16
     instructions := [.ofMnemonic 16 "mov" [.ofReg .ebx, .imm 5]]
     successors := [32] },
    { address := 32
      instructions :=
        [.ofMnemonic 32 "mov" [.atOffset .esi 0, .ofReg .ecx],
          .ofMnemonic 34 "mov" [.ofReg .ebx, .imm 7],
          .ofMnemonic 36 "loop" [.imm 32]]
      successors := [32, 48] },
    { address := 48
      instructions := [.ofMnemonic 48 "mov" [.ofReg .eax, .ofReg .ebx], .ofMnemonic 50 "ret" []]
      successors := [] }]

def context : AnalysisContext := .ofBlocks blocks 16

def deps : Dependencies :=
  (context.collect [16, 32, 48]).toOption.getD { entry := 16, blocks := [] }

theorem collect_eq : context.collect [16, 32, 48] = .ok deps :=
  AnalysisContext.collect_eq_ok (by decide +kernel) _

theorem modeled : context.Modeled [16, 32, 48] := by
  have hlifted : ∀ insn ∈ blocks.flatMap Block.instructions, insn.Lifted := by
    simp only [blocks, List.flatMap_cons, List.flatMap_nil, List.append_nil, List.cons_append,
      List.nil_append, List.forall_mem_cons]
    exact ⟨rfl, rfl, rfl, rfl, rfl, rfl, List.forall_mem_nil _⟩
  have hkinds : ∀ insn ∈ blocks.flatMap Block.instructions,
      insn.kind ≠ .call ∧ insn.kind ≠ .unmodeled := by decide +kernel
  intro address _ block hblock insn hinsn
  obtain ⟨given, hgiven, hsame⟩ := AnalysisContext.exists_block_ofBlocks hblock
  have hcode := List.mem_flatMap.mpr ⟨given, hgiven, hsame ▸ hinsn⟩
  exact ⟨hlifted insn hcode, (hkinds insn hcode).1, (hkinds insn hcode).2⟩

theorem writesBeforeLeaving : context.WritesBeforeLeaving [16, 32, 48] (.reg .ebx) := by
  have hwrites : ∀ block ∈ blocks, WritesBeforeLeaving (.reg .ebx) block.instructions := by
    decide +kernel
  intro address _ block hblock
  obtain ⟨given, hgiven, hsame⟩ := AnalysisContext.exists_block_ofBlocks hblock
  exact hsame ▸ hwrites given hgiven

/-- A taken branch goes to one address, and one that is not taken to the other. -/
def control (taken otherwise : Address) : Control := fun history =>
  match history.getLast? with
  | some (_, shown) =>
    if .branch true ∈ shown then some taken
    else if .branch false ∈ shown then some otherwise else none
  | none => none

/-- The counter is two and the zero flag is set. -/
def machine (ebx : Word) : MachineState :=
  { symbol := fun
      | .reg .ecx => 2
      | .reg .ebx => ebx
      | .flag .z => 1
      | _ => 0
    memory := fun _ => 0 }

theorem agreeExcept (ebx ebx' : Word) : AgreeExcept (.reg .ebx) (machine ebx) (machine ebx') := by
  refine ⟨rfl, fun other hother => ?_⟩
  simp only [machine]
  split <;> simp_all

/-- Whatever the first block has left in `ebx`, the loop stores the counter and
goes round twice, and the value set in the loop is returned. -/
theorem execution_eq_of_dropped_counter :
    deps.writes 16 = [.reg .ebx] ∧ deps.eliminateDeadWrites.writes 16 = [] ∧
      execution context.scope.block? silent.toWorld .eax (control 32 48) 4 [] 32 (machine 5) =
        [(32, [.store 0 4 2, .branch true]), (32, [.store 0 4 1, .branch false]),
          (48, [.ret 7])] := by
  have hwrites : deps.writes 16 = [.reg .ebx] := by decide +kernel
  have hdropped : deps.eliminateDeadWrites.writes 16 = [] := by decide +kernel
  have hsame := AnalysisContext.execution_eq_of_dropped collect_eq modeled writesBeforeLeaving
    (hwrites ▸ List.mem_singleton_self _) (hdropped ▸ List.not_mem_nil)
    (show 32 ∈ deps.successors 16 by decide +kernel) (agreeExcept 5 0) silent.toWorld
    (control 32 48) 4 []
  refine ⟨hwrites, hdropped, hsame.trans ?_⟩
  decide +kernel

end CountedStores

/-! ## A branch before a write -/

namespace BranchBeforeWrite

open CWorld (silent)
open CountedStores (control machine)

/-- The second block sets `ebx` again, but only behind a branch to the block at `64`, which
returns it. -/
def blocks : List Block :=
  [{ address := 16
     instructions := [.ofMnemonic 16 "mov" [.ofReg .ebx, .imm 5]]
     successors := [32] },
    { address := 32
      instructions :=
        [.ofMnemonic 32 "jz" [.imm 64], .ofMnemonic 34 "mov" [.ofReg .ebx, .imm 7]]
      successors := [64, 48] },
    { address := 48
      instructions :=
        [.ofMnemonic 48 "mov" [.ofReg .eax, .ofReg .ebx], .ofMnemonic 50 "ret" []] },
    { address := 64
      instructions :=
        [.ofMnemonic 64 "mov" [.ofReg .eax, .ofReg .ebx], .ofMnemonic 66 "ret" []] }]

def context : AnalysisContext := .ofBlocks blocks 16

def deps : Dependencies :=
  (context.collect [16, 32, 48, 64]).toOption.getD { entry := 16, blocks := [] }

/-- The block counts as one that writes `ebx` before anything reads it, so the write before
it is dropped. But the branch is taken before the second write, and what the first block has
left in `ebx` is returned. -/
theorem dropped_write_returned :
    context.collect [16, 32, 48, 64] = .ok deps ∧ context.Modeled [16, 32, 48, 64] ∧
      deps.writes 16 = [.reg .ebx] ∧ deps.eliminateDeadWrites.writes 16 = [] ∧
      deps.successors 16 = [32] ∧ AgreeExcept (.reg .ebx) (machine 5) (machine 0) ∧
      execution context.scope.block? silent.toWorld .eax (control 64 48) 4 [] 32 (machine 5) =
        [(32, [.branch true]), (64, [.ret 5])] ∧
      execution context.scope.block? silent.toWorld .eax (control 64 48) 4 [] 32 (machine 0) =
        [(32, [.branch true]), (64, [.ret 0])] := by
  have hlifted : ∀ insn ∈ blocks.flatMap Block.instructions, insn.Lifted := by
    simp only [blocks, List.flatMap_cons, List.flatMap_nil, List.append_nil, List.cons_append,
      List.nil_append, List.forall_mem_cons]
    exact ⟨rfl, rfl, rfl, rfl, rfl, rfl, rfl, List.forall_mem_nil _⟩
  have hkinds : ∀ insn ∈ blocks.flatMap Block.instructions,
      insn.kind ≠ .call ∧ insn.kind ≠ .unmodeled := by decide +kernel
  refine ⟨AnalysisContext.collect_eq_ok (by decide +kernel) _, ?_, by decide +kernel,
    by decide +kernel, by decide +kernel, CountedStores.agreeExcept 5 0, by decide +kernel,
    by decide +kernel⟩
  intro address _ block hblock insn hinsn
  obtain ⟨given, hgiven, hsame⟩ := AnalysisContext.exists_block_ofBlocks hblock
  have hcode := List.mem_flatMap.mpr ⟨given, hgiven, hsame ▸ hinsn⟩
  exact ⟨hlifted insn hcode, (hkinds insn hcode).1, (hkinds insn hcode).2⟩

end BranchBeforeWrite

end Uncompile
