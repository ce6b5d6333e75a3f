import Mathlib.Data.List.Chain
import Uncompile.Proofs.Dataflow.InputPaths

/-!
# The blocks of a function

The blocks of a function are those that control can come to from its entry without
leaving the program and without passing into another function. They are computed as
a closure and listed in address order, the entry apart, which comes first.
-/

namespace Uncompile

namespace Program

variable {program : Program} {entry address next : Address} {path : List Address}

/-- Control can continue at `next` after the block at an address. -/
def Edge (program : Program) (address next : Address) : Prop :=
  ∃ block, program.block? address = some block ∧ next ∈ block.successors

/-- A path along edges from the entry of a function. Every place on it has a block, and
none but the entry is the entry of a known function. -/
structure FunctionPath (program : Program) (entry : Address) (path : List Address) : Prop where
  starts : path.head? = some entry
  edges : path.IsChain program.Edge
  block : ∀ address ∈ path, (program.block? address).isSome
  inside : ∀ address ∈ path, address ≠ entry → address ∉ program.functions

theorem mem_functionSuccessors_iff :
    next ∈ program.functionSuccessors entry address ↔
      program.Edge address next ∧ (program.block? next).isSome ∧
        (next ≠ entry → next ∉ program.functions) := by
  have hblock? : program.blocks.contains next = (program.block? next).isSome := rfl
  cases hblock : program.block? address with
  | none => simp [functionSuccessors, Edge, hblock]
  | some block =>
      simp only [functionSuccessors, Edge, hblock, List.mem_filter, hblock?, Bool.and_eq_true,
        Bool.or_eq_true, decide_eq_true_eq, Option.some.injEq, exists_eq_left']
      rw [imp_iff_not_or, not_not]

theorem functionPath_entry (hentry : (program.block? entry).isSome) :
    program.FunctionPath entry [entry] where
  starts := rfl
  edges := .singleton entry
  block := List.forall_mem_singleton.mpr hentry
  inside := List.forall_mem_singleton.mpr fun hne => absurd rfl hne

/-- A path goes on along an edge that stays in the function. -/
theorem FunctionPath.snoc (h : program.FunctionPath entry path)
    (hlast : path.getLast? = some address)
    (hnext : next ∈ program.functionSuccessors entry address) :
    program.FunctionPath entry (path ++ [next]) := by
  obtain ⟨hedge, hblock, hinside⟩ := mem_functionSuccessors_iff.mp hnext
  refine ⟨?_, ?_, ?_, ?_⟩
  · rw [List.head?_append, h.starts]
    rfl
  · refine h.edges.append (.singleton next) ?_
    intro last hlast' first hfirst
    rw [hlast, Option.mem_some_iff] at hlast'
    rw [List.head?_singleton, Option.mem_some_iff] at hfirst
    rw [← hlast', ← hfirst]
    exact hedge
  · exact List.forall_mem_append.mpr ⟨h.block, List.forall_mem_singleton.mpr hblock⟩
  · exact List.forall_mem_append.mpr ⟨h.inside, List.forall_mem_singleton.mpr hinside⟩

/-- Edges inside a function do not leave its blocks. -/
theorem mem_functionBlocks_of_edge (haddress : address ∈ program.functionBlocks entry)
    (hedge : program.Edge address next) (hblock : (program.block? next).isSome)
    (hinside : next ≠ entry → next ∉ program.functions) :
    next ∈ program.functionBlocks entry := by
  have hentry := contains_of_mem_functionBlocks haddress
  rw [mem_functionBlocks_iff hentry] at haddress ⊢
  exact mem_closure_of_step haddress (SortedMap.isSome_get?_iff.mp hblock)
    (mem_functionSuccessors_iff.mpr ⟨hedge, hblock, hinside⟩)

/-- A path that starts at a block of the function stays in its blocks. -/
theorem forall_mem_functionBlocks (haddress : address ∈ program.functionBlocks entry)
    (hedges : (address :: path).IsChain program.Edge)
    (hblock : ∀ place ∈ path, (program.block? place).isSome)
    (hinside : ∀ place ∈ path, place ≠ entry → place ∉ program.functions) :
    ∀ place ∈ address :: path, place ∈ program.functionBlocks entry := by
  induction path generalizing address with
  | nil => exact List.forall_mem_singleton.mpr haddress
  | cons next rest ih =>
      obtain ⟨hedge, hrest⟩ := List.isChain_cons_cons.mp hedges
      rw [List.forall_mem_cons] at hblock hinside
      have hnext := mem_functionBlocks_of_edge haddress hedge hblock.1 hinside.1
      exact List.forall_mem_cons.mpr ⟨haddress, ih hnext hrest hblock.2 hinside.2⟩

/-- A block belongs to a function exactly if a path inside the function leads to it. -/
theorem mem_functionBlocks_iff_path (hentry : (program.block? entry).isSome) :
    address ∈ program.functionBlocks entry ↔
      ∃ path, program.FunctionPath entry path ∧ path.getLast? = some address := by
  constructor
  · intro haddress
    rw [mem_functionBlocks_iff hentry] at haddress
    refine closure_induction (P := fun address =>
      ∃ path, program.FunctionPath entry path ∧ path.getLast? = some address) ?_ ?_ haddress
    · exact List.forall_mem_singleton.mpr ⟨[entry], functionPath_entry hentry, rfl⟩
    · rintro address next ⟨path, hpath, hlast⟩ _ hnext
      exact ⟨path ++ [next], hpath.snoc hlast hnext, List.getLast?_concat⟩
  · rintro ⟨path, hpath, hlast⟩
    obtain ⟨rest, rfl⟩ := List.head?_eq_some_iff.mp hpath.starts
    have hself : entry ∈ program.functionBlocks entry := by
      rw [mem_functionBlocks_iff hentry]
      exact subset_closure (List.mem_singleton_self entry)
    exact forall_mem_functionBlocks hself hpath.edges (List.forall_mem_cons.mp hpath.block).2
      (List.forall_mem_cons.mp hpath.inside).2 address (List.mem_of_getLast? hlast)

/-- The blocks of a function are its entry, followed by further addresses in increasing
order, and they are the ends of the paths inside the function. -/
theorem functionBlocks_exact (hentry : (program.block? entry).isSome) :
    ∃ others, program.functionBlocks entry = entry :: others ∧ entry ∉ others ∧
      others.Pairwise (· < ·) ∧
      ∀ address, address ∈ program.functionBlocks entry ↔
        ∃ path, program.FunctionPath entry path ∧ path.getLast? = some address := by
  refine ⟨_, if_pos hentry, ?_, ?_, fun address => mem_functionBlocks_iff_path hentry⟩
  · intro hmem
    simp at hmem
  · exact program.blocks.pairwise_keys.filter _

end Program

/-! ## A loop with ways out -/

namespace LoopWithWaysOut

/-- The function at `32` goes around through `48` and `16`. It also goes to `64`, where
another function starts, and to `80`, where there is no block. -/
def program : Program :=
  { [{ address := 32, successors := [80, 48, 64] }, { address := 48, successors := [48, 16] },
      { address := 16, successors := [32] }, { address := 64, successors := [96] },
      { address := 96 }].foldl Program.insertBlock {} with
    functions := [32, 64] }

/-- The loop is listed from its entry on, and no path inside the function leads to the
block behind the other function. -/
theorem functionBlocks_exact_loop :
    program.functionBlocks 32 = [32, 16, 48] ∧
      (∃ path, program.FunctionPath 32 path ∧ path.getLast? = some 16) ∧
      ¬ ∃ path, program.FunctionPath 32 path ∧ path.getLast? = some 96 := by
  have hblocks : program.functionBlocks 32 = [32, 16, 48] := by decide +kernel
  have hentry : (program.block? 32).isSome := rfl
  obtain ⟨_, _, _, _, hexact⟩ := Program.functionBlocks_exact hentry
  refine ⟨hblocks, (hexact 16).mp (by simp [hblocks]), fun hpath => ?_⟩
  have hmem := (hexact 96).mpr hpath
  simp [hblocks] at hmem

end LoopWithWaysOut

end Uncompile
