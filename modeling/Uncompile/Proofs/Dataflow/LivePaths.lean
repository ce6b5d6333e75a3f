import Mathlib.Logic.Relation
import Uncompile.Proofs.Dataflow.DeadWrites

/-!
# Liveness is about paths

What the backward sweeps find is exactly a statement about paths: a symbol is live
at the end of a block if some path from there reads it before writing it, or ends in
a block that leaves the function and has not written it. Nothing in this depends on
the order of the blocks, so neither does what dead-write elimination keeps.
-/

namespace Uncompile

namespace Dependencies

/-- Whether control can leave the function at the end of a block. -/
def escapes (deps : Dependencies) (address : Address) : Bool :=
  ((deps.block? address).map BlockDeps.escapes).getD false

/-- Control can go from one block of the function to the other. -/
def Follows (deps : Dependencies) (block next : Address) : Prop :=
  next ∈ deps.successors block ∧ next ∈ deps.addresses

/-- A path of any length along which no block writes the symbol, the first block
apart. -/
def PassesTo (deps : Dependencies) (symbol : Symbol) : Address → Address → Prop :=
  Relation.ReflTransGen fun block next => deps.Follows block next ∧ symbol ∉ deps.writes next

/-- Some block of the function reads or writes the symbol. -/
def Mentions (deps : Dependencies) (symbol : Symbol) : Prop :=
  ∃ block, symbol ∈ deps.reads block ∨ symbol ∈ deps.writes block

/-- After a block, the symbol is read before it is written, or the function is
left before it is written. -/
def NeededAfter (deps : Dependencies) (symbol : Symbol) (address : Address) : Prop :=
  ∃ last, deps.PassesTo symbol address last ∧
    ((∃ next, deps.Follows last next ∧ symbol ∈ deps.reads next) ∨
      deps.escapes last ∧ deps.Mentions symbol)

variable {deps : Dependencies} {symbol : Symbol} {address : Address}

theorem mem_tracked_iff (hnodup : deps.addresses.Nodup) :
    symbol ∈ deps.tracked ↔ deps.Mentions symbol := by
  rw [tracked, OrderedSet.mem_addAll, List.mem_flatMap]
  constructor
  · rintro (hnil | ⟨⟨block, found⟩, hentry, hsymbol⟩)
    · exact absurd hnil List.not_mem_nil
    · have hblock := (block?_eq_some_iff hnodup).mpr hentry
      refine ⟨block, (List.mem_append.mp hsymbol).imp ?_ ?_⟩
      · intro hread
        simpa [reads, hblock] using hread
      · intro hwritten
        simpa [writes, hblock] using hwritten
  · rintro ⟨block, hsymbol⟩
    cases hblock : deps.block? block with
    | none => simp [reads, writes, hblock] at hsymbol
    | some found =>
        refine Or.inr ⟨_, mem_blocks_of_block? hblock, List.mem_append.mpr ?_⟩
        simpa [reads, writes, hblock] using hsymbol

/-! ## Live blocks -/

/-- What liveness starts from: blocks that escape or have a successor that reads
the symbol. -/
theorem liveAtOnce_iff (hnodup : deps.addresses.Nodup) {block : BlockDeps}
    (hblock : deps.block? address = some block) :
    deps.liveAtOnce symbol block ↔
      (∃ next, deps.Follows address next ∧ symbol ∈ deps.reads next) ∨
        deps.escapes address ∧ deps.Mentions symbol := by
  have hsuccessors : deps.successors address = block.successors := by simp [successors, hblock]
  have hescapes : deps.escapes address = block.escapes := by simp [escapes, hblock]
  simp only [liveAtOnce, Bool.or_eq_true, Bool.and_eq_true, decide_eq_true_eq, List.any_eq_true,
    mem_tracked_iff hnodup, Follows, hsuccessors, hescapes]
  rw [or_comm]
  refine or_congr_left (exists_congr fun next => ?_)
  exact ⟨fun h => ⟨⟨h.1, mem_addresses_of_mem_reads h.2⟩, h.2⟩, fun h => ⟨h.1.1, h.2⟩⟩

/-- A path to what liveness starts from makes a block live, one block at a time
from its end. -/
theorem mem_liveBlocks_of_passesTo {last : Address} (hpath : deps.PassesTo symbol address last)
    {block : BlockDeps} (hblock : deps.block? last = some block)
    (honce : deps.liveAtOnce symbol block) : address ∈ deps.liveBlocks symbol := by
  induction hpath using Relation.ReflTransGen.head_induction_on with
  | refl => exact mem_liveBlocks_of_liveAtOnce (mem_blocks_of_block? hblock) honce
  | head hstep _ ih =>
      obtain ⟨⟨hnext, _⟩, hwrites⟩ := hstep
      exact mem_liveBlocks_of_next ih hwrites hnext

/-- Every live block has such a path: the start of the computation has the empty
one, and each step backwards puts a block in front. -/
theorem exists_passesTo_of_mem_liveBlocks (hnodup : deps.addresses.Nodup)
    (hlive : address ∈ deps.liveBlocks symbol) :
    address ∈ deps.addresses ∧ ∃ last block, deps.PassesTo symbol address last ∧
      deps.block? last = some block ∧ deps.liveAtOnce symbol block := by
  refine closure_induction (P := fun address => address ∈ deps.addresses ∧ ∃ last block,
    deps.PassesTo symbol address last ∧ deps.block? last = some block ∧
      deps.liveAtOnce symbol block) ?_ ?_ hlive
  · intro start hstart
    obtain ⟨⟨_, block⟩, hentry, rfl⟩ := List.mem_map.mp hstart
    obtain ⟨hmem, honce⟩ := List.mem_filter.mp hentry
    have hblock := (block?_eq_some_iff hnodup).mpr hmem
    exact ⟨mem_addresses_of_block? hblock, _, block, .refl, hblock, honce⟩
  · rintro next earlier ⟨hnext, last, block, hpath, hlast⟩ hearlier hstep
    split at hstep
    · exact absurd hstep List.not_mem_nil
    · rename_i hwrites
      have hfollows : deps.Follows earlier next :=
        ⟨(mem_predecessors_iff hnodup).mp hstep, hnext⟩
      exact ⟨hearlier, last, block, hpath.head ⟨hfollows, hwrites⟩, hlast⟩

theorem mem_liveBlocks_iff (hnodup : deps.addresses.Nodup) :
    address ∈ deps.liveBlocks symbol ↔ deps.NeededAfter symbol address := by
  constructor
  · intro hlive
    obtain ⟨_, last, block, hpath, hblock, honce⟩ := exists_passesTo_of_mem_liveBlocks hnodup hlive
    exact ⟨last, hpath, (liveAtOnce_iff hnodup hblock).mp honce⟩
  · rintro ⟨last, hpath, hend⟩
    cases hblock : deps.block? last with
    | none => simp [Follows, successors, escapes, hblock] at hend
    | some block =>
        exact mem_liveBlocks_of_passesTo hpath hblock
          ((liveAtOnce_iff hnodup hblock).mpr hend)

theorem mem_liveOut_iff (hnodup : deps.addresses.Nodup) :
    symbol ∈ deps.liveOut address ↔ deps.NeededAfter symbol address := by
  rw [mem_liveOut_iff_mem_liveBlocks hnodup, mem_liveBlocks_iff hnodup]

/-! ## The order of the blocks -/

theorem block?_eq_of_perm {other : Dependencies} (hnodup : deps.addresses.Nodup)
    (hperm : other.blocks.Perm deps.blocks) (address : Address) :
    other.block? address = deps.block? address := by
  have hother : other.addresses.Nodup := (hperm.map Prod.fst).nodup_iff.mpr hnodup
  ext block
  rw [block?_eq_some_iff hother, block?_eq_some_iff hnodup, hperm.mem_iff]

theorem neededAfter_iff_of_perm {other : Dependencies} (hnodup : deps.addresses.Nodup)
    (hperm : other.blocks.Perm deps.blocks) :
    other.NeededAfter symbol address ↔ deps.NeededAfter symbol address := by
  have hblock : other.block? = deps.block? := funext (block?_eq_of_perm hnodup hperm)
  have hmember : ∀ next, next ∈ other.addresses ↔ next ∈ deps.addresses :=
    fun next => (hperm.map Prod.fst).mem_iff
  simp only [NeededAfter, PassesTo, Follows, Mentions, escapes, successors, reads, writes, hblock,
    hmember]

/-- The sweeps find a symbol live at the end of a block exactly if it is needed after it,
and elimination keeps exactly the writes of such symbols, whatever the order in which the
blocks are listed. -/
theorem liveOut_exact (hnodup : deps.addresses.Nodup) (symbol : Symbol) (address : Address) :
    (symbol ∈ deps.liveOut address ↔ deps.NeededAfter symbol address) ∧
      (symbol ∈ deps.eliminateDeadWrites.writes address ↔
        symbol ∈ deps.writes address ∧ deps.NeededAfter symbol address) ∧
      ∀ other : Dependencies, other.blocks.Perm deps.blocks →
        other.eliminateDeadWrites.writes address = deps.eliminateDeadWrites.writes address := by
  refine ⟨mem_liveOut_iff hnodup, ?_, fun other hperm => ?_⟩
  · rw [mem_writes_eliminateDeadWrites, mem_liveOut_iff hnodup]
  · have hother : other.addresses.Nodup := (hperm.map Prod.fst).nodup_iff.mpr hnodup
    have hwrites : other.writes address = deps.writes address := by
      rw [writes, writes, block?_eq_of_perm hnodup hperm]
    rw [writes_eliminateDeadWrites, writes_eliminateDeadWrites, hwrites]
    apply List.filter_congr
    intro written _
    rw [decide_eq_decide, mem_liveOut_iff hother, mem_liveOut_iff hnodup,
      neededAfter_iff_of_perm hnodup hperm]

end Dependencies

/-! ## A loop with a way out -/

namespace LoopWithExit

/-- The loop at `32` reads `ecx` and sets `edx`; the block behind it leaves the
function. -/
def deps : Dependencies :=
  { entry := 16
    blocks :=
      [(16, { writes := [.reg .ecx, .reg .edx, .reg .ebx], successors := [32] }),
        (32, { reads := [.reg .ecx], writes := [.reg .edx], successors := [32, 48] }),
        (48, { reads := [.reg .edx], writes := [.reg .eax],
               successors := [64], escapes := true })] }

/-- `ecx` is read in the loop and `ebx` may be read outside the function, but the
loop sets `edx` before anything reads it. Listing the blocks backwards changes
nothing. -/
theorem liveOut_exact_loop :
    deps.addresses.Nodup ∧ deps.NeededAfter (.reg .ecx) 16 ∧ deps.NeededAfter (.reg .ebx) 16 ∧
      ¬ deps.NeededAfter (.reg .edx) 16 ∧
      { deps with blocks := deps.blocks.reverse }.eliminateDeadWrites.writes 16 =
        [.reg .ecx, .reg .ebx] := by
  have hnodup : deps.addresses.Nodup := by decide
  have hexact := fun symbol => Dependencies.liveOut_exact hnodup symbol 16
  refine ⟨hnodup, (hexact _).1.mp (by decide +kernel), (hexact _).1.mp (by decide +kernel),
    mt (hexact _).1.mpr (by decide +kernel), ?_⟩
  rw [(hexact (.reg .ecx)).2.2 _ (List.reverse_perm _)]
  decide +kernel

end LoopWithExit

end Uncompile
