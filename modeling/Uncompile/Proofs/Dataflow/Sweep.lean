import Mathlib.Data.List.Nodup
import Uncompile.Dataflow.Liveness
import Uncompile.Proofs.Closure

/-!
# What sweeping finds

For one symbol, liveness asks which blocks reach a reader or an exit backwards
through blocks that do not write it: a closure under one step. The sweeps find the
same. An entry is only ever written with what its successors call for, so nothing
outside the closure is entered. A sweep that writes no entry finds every entry equal
to what its successors call for, so nothing of the closure is missing. In which order
the blocks are visited does not matter.
-/

namespace Uncompile

namespace Dependencies

variable {deps : Dependencies} {symbol : Symbol} {address next : Address}

/-! ## Blocks by their address -/

theorem exists_block?_of_mem (haddress : address ∈ deps.addresses) :
    ∃ block, deps.block? address = some block := by
  obtain ⟨entry, hentry, rfl⟩ := List.mem_map.mp haddress
  have hfound : (deps.blocks.find? fun other => other.1 = entry.1).isSome :=
    List.find?_isSome.mpr ⟨entry, hentry, decide_eq_true rfl⟩
  obtain ⟨found, hfind⟩ := Option.isSome_iff_exists.mp hfound
  exact ⟨found.2, by rw [block?, hfind]; rfl⟩

theorem block?_eq_some_iff (hnodup : deps.addresses.Nodup) {block : BlockDeps} :
    deps.block? address = some block ↔ (address, block) ∈ deps.blocks := by
  refine ⟨mem_blocks_of_block?, fun hmem => ?_⟩
  obtain ⟨found, hfound⟩ := exists_block?_of_mem (List.mem_map.mpr ⟨_, hmem, rfl⟩)
  have hsame := List.inj_on_of_nodup_map hnodup (mem_blocks_of_block? hfound) hmem rfl
  rw [hfound, (Prod.mk.inj hsame).2]

theorem mem_addresses_of_block? {block : BlockDeps} (hblock : deps.block? address = some block) :
    address ∈ deps.addresses :=
  List.mem_map.mpr ⟨_, mem_blocks_of_block? hblock, rfl⟩

theorem mem_addresses_of_mem_reads (hread : symbol ∈ deps.reads address) :
    address ∈ deps.addresses := by
  cases hblock : deps.block? address with
  | none => simp [reads, hblock] at hread
  | some block => exact mem_addresses_of_block? hblock

theorem exists_block?_of_mem_successors (hnext : next ∈ deps.successors address) :
    ∃ block, deps.block? address = some block ∧ next ∈ block.successors := by
  cases hblock : deps.block? address with
  | none => simp [successors, hblock] at hnext
  | some block => exact ⟨block, rfl, by simpa [successors, hblock] using hnext⟩

theorem mem_predecessors_of_mem_successors (hnext : next ∈ deps.successors address) :
    address ∈ deps.predecessors next := by
  obtain ⟨block, hblock, hnext⟩ := exists_block?_of_mem_successors hnext
  exact List.mem_map.mpr
    ⟨_, List.mem_filter.mpr ⟨mem_blocks_of_block? hblock, decide_eq_true hnext⟩, rfl⟩

theorem mem_predecessors_iff (hnodup : deps.addresses.Nodup) :
    address ∈ deps.predecessors next ↔ next ∈ deps.successors address := by
  refine ⟨fun hmem => ?_, mem_predecessors_of_mem_successors⟩
  obtain ⟨⟨_, block⟩, hentry, rfl⟩ := List.mem_map.mp hmem
  obtain ⟨hblock, hnext⟩ := List.mem_filter.mp hentry
  rw [successors, (block?_eq_some_iff hnodup).mpr hblock]
  simpa using hnext

/-! ## Live blocks -/

/-- Whether a symbol is live at the end of a block already because of its
immediate successors. -/
def liveAtOnce (deps : Dependencies) (symbol : Symbol) (block : BlockDeps) : Bool :=
  (block.escapes && symbol ∈ deps.tracked) ||
    block.successors.any fun next => symbol ∈ deps.reads next

/-- The blocks at whose end a symbol is live. -/
def liveBlocks (deps : Dependencies) (symbol : Symbol) : List Address :=
  closure deps.addresses
    (fun address => if symbol ∈ deps.writes address then [] else deps.predecessors address)
    ((deps.blocks.filter fun entry => deps.liveAtOnce symbol entry.2).map Prod.fst)

theorem mem_liveBlocks_of_liveAtOnce {block : BlockDeps} (hmem : (address, block) ∈ deps.blocks)
    (honce : deps.liveAtOnce symbol block) : address ∈ deps.liveBlocks symbol :=
  subset_closure (List.mem_map.mpr ⟨_, List.mem_filter.mpr ⟨hmem, honce⟩, rfl⟩)

theorem mem_liveBlocks_of_reads (hnext : next ∈ deps.successors address)
    (hread : symbol ∈ deps.reads next) : address ∈ deps.liveBlocks symbol := by
  obtain ⟨block, hblock, hsuccessor⟩ := exists_block?_of_mem_successors hnext
  refine mem_liveBlocks_of_liveAtOnce (mem_blocks_of_block? hblock) ?_
  rw [liveAtOnce, Bool.or_eq_true]
  exact .inr (List.any_eq_true.mpr ⟨next, hsuccessor, decide_eq_true hread⟩)

theorem mem_liveBlocks_of_next (hlive : next ∈ deps.liveBlocks symbol)
    (hwrites : symbol ∉ deps.writes next) (hnext : next ∈ deps.successors address) :
    address ∈ deps.liveBlocks symbol := by
  obtain ⟨block, hblock, -⟩ := exists_block?_of_mem_successors hnext
  apply mem_closure_of_step hlive (mem_addresses_of_block? hblock)
  rw [if_neg hwrites]
  exact mem_predecessors_of_mem_successors hnext

end Dependencies

/-! ## Sweeps -/

namespace LiveTable

open Dependencies (liveBlocks liveAtOnce)

variable {deps : Dependencies} {live : LiveTable deps} {symbol : Symbol} {address : Address}

/-- What every update keeps, sweeping keeps. -/
theorem settle_induction {P : LiveTable deps → Prop}
    (hupdate : ∀ live address, P live → P (live.update address)) (hlive : P live) :
    P live.settle := by
  have hvisit : ∀ (addresses : List Address) (state : LiveTable deps × Bool), P state.1 →
      P (addresses.foldl visit state).1 := by
    intro addresses
    induction addresses with
    | nil => exact fun _ h => h
    | cons address rest ih =>
        intro state h
        refine ih _ ?_
        rw [visit]
        split
        · exact h
        · exact hupdate state.1 address h
  fun_induction settle live with
  | case1 live _ ih => exact ih (hvisit _ (live, false) hlive)
  | case2 live _ => exact hvisit _ (live, false) hlive

/-- In the end every entry is what its successors call for. -/
theorem liveAfter_settle (live : LiveTable deps) (haddress : address ∈ deps.addresses) :
    live.settle.liveAfter address = live.settle.liveAt address := by
  fun_induction settle live with
  | case1 live _ ih => exact ih
  | case2 live hflag =>
      rcases live.sweep_cases with ⟨hsweep, hclosed⟩ | ⟨hgrown, -⟩
      · rw [hsweep]
        exact hclosed address haddress
      · exact absurd hgrown hflag

theorem mem_liveAt_update (hlive : symbol ∈ live.liveAt address) (other : Address) :
    symbol ∈ (live.update other).liveAt address := by
  rw [liveAt_update]
  split
  · rename_i hsame
    subst hsame
    exact mem_liveAfter.mpr (.inl hlive)
  · exact hlive

/-- Nothing is entered outside the live blocks. -/
def Sound (live : LiveTable deps) : Prop :=
  ∀ address symbol, symbol ∈ live.liveAt address → address ∈ deps.liveBlocks symbol

theorem sound_start : (start deps).Sound := by
  intro address symbol hlive
  cases hfound : (start deps).table.get? address with
  | none => simp [liveAt, hfound] at hlive
  | some symbols =>
      obtain ⟨⟨_, block⟩, hmem, hentry⟩ :=
        List.mem_map.mp (SortedMap.mem_of_mem_ofList (SortedMap.mem_of_get? hfound))
      obtain ⟨rfl, rfl⟩ := Prod.mk.inj hentry
      simp only [liveAt, hfound, Option.getD_some] at hlive
      split at hlive
      · rename_i hescapes
        refine Dependencies.mem_liveBlocks_of_liveAtOnce hmem ?_
        rw [liveAtOnce, Bool.or_eq_true, Bool.and_eq_true]
        exact .inl ⟨hescapes, decide_eq_true hlive⟩
      · exact absurd hlive List.not_mem_nil

theorem Sound.update (h : live.Sound) (address : Address) : (live.update address).Sound := by
  intro other symbol hlive
  rw [liveAt_update] at hlive
  split at hlive
  · rename_i hsame
    subst hsame
    rcases mem_liveAfter.mp hlive with hlive | ⟨next, hnext, hread | ⟨hlive, hwrites⟩⟩
    · exact h _ symbol hlive
    · exact Dependencies.mem_liveBlocks_of_reads hnext hread
    · exact Dependencies.mem_liveBlocks_of_next (h next symbol hlive) hwrites hnext
  · exact h other symbol hlive

end LiveTable

namespace Dependencies

variable {deps : Dependencies} {symbol : Symbol} {address next : Address}

theorem mem_liveOut_of_reads (hnext : next ∈ deps.successors address)
    (hread : symbol ∈ deps.reads next) : symbol ∈ deps.liveOut address := by
  obtain ⟨block, hblock, -⟩ := exists_block?_of_mem_successors hnext
  rw [liveOut, liveness, ← LiveTable.liveAfter_settle _ (mem_addresses_of_block? hblock)]
  exact LiveTable.mem_liveAfter.mpr (.inr ⟨next, hnext, .inl hread⟩)

theorem mem_liveOut_of_next (hlive : symbol ∈ deps.liveOut next)
    (hwrites : symbol ∉ deps.writes next) (hnext : next ∈ deps.successors address) :
    symbol ∈ deps.liveOut address := by
  obtain ⟨block, hblock, -⟩ := exists_block?_of_mem_successors hnext
  rw [liveOut, liveness, ← LiveTable.liveAfter_settle _ (mem_addresses_of_block? hblock)]
  exact LiveTable.mem_liveAfter.mpr (.inr ⟨next, hnext, .inr ⟨hlive, hwrites⟩⟩)

theorem mem_liveOut_of_escapes (hnodup : deps.addresses.Nodup) {block : BlockDeps}
    (hblock : (address, block) ∈ deps.blocks) (hescapes : block.escapes)
    (htracked : symbol ∈ deps.tracked) : symbol ∈ deps.liveOut address := by
  refine LiveTable.settle_induction (P := fun live => symbol ∈ live.liveAt address)
    (fun live other hlive => LiveTable.mem_liveAt_update hlive other) ?_
  have hkeys : ((deps.blocks.map fun entry =>
      (entry.1, if entry.2.escapes then deps.tracked else [])).map Prod.fst).Nodup := by
    rw [List.map_map]
    exact hnodup
  have hstart : (LiveTable.start deps).table.get? address = some deps.tracked := by
    refine SortedMap.get?_ofList_of_mem hkeys (List.mem_map.mpr ⟨_, hblock, ?_⟩)
    rw [if_pos hescapes]
  rw [LiveTable.liveAt, hstart]
  exact htracked

/-- The sweeps find a symbol live exactly at the ends of its live blocks. -/
theorem mem_liveOut_iff_mem_liveBlocks (hnodup : deps.addresses.Nodup) :
    symbol ∈ deps.liveOut address ↔ address ∈ deps.liveBlocks symbol := by
  constructor
  · exact LiveTable.settle_induction (fun _ other h => h.update other) LiveTable.sound_start
      address symbol
  · refine closure_induction (P := fun address => symbol ∈ deps.liveOut address) ?_ ?_
    · intro start hstart
      obtain ⟨⟨_, block⟩, hentry, rfl⟩ := List.mem_map.mp hstart
      obtain ⟨hmem, honce⟩ := List.mem_filter.mp hentry
      rw [liveAtOnce, Bool.or_eq_true, Bool.and_eq_true, decide_eq_true_eq] at honce
      rcases honce with ⟨hescapes, htracked⟩ | hread
      · exact mem_liveOut_of_escapes hnodup hmem hescapes htracked
      · obtain ⟨next, hnext, hread⟩ := List.any_eq_true.mp hread
        refine mem_liveOut_of_reads ?_ (of_decide_eq_true hread)
        rw [successors, (block?_eq_some_iff hnodup).mpr hmem]
        exact hnext
    · intro next earlier hlive _ hstep
      split at hstep
      · exact absurd hstep List.not_mem_nil
      · rename_i hwrites
        exact mem_liveOut_of_next hlive hwrites ((mem_predecessors_iff hnodup).mp hstep)

end Dependencies

end Uncompile
