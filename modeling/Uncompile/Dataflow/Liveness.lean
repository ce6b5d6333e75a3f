import Uncompile.Dataflow.Dependencies

/-!
# Liveness

A symbol is live at the end of a block if some path reads it before writing it,
or leaves the function without writing it. The symbols that are live at the ends
of blocks are found by sweeping backwards over the blocks until a sweep finds no
new one. A write is dead if the symbol is not live at the end of the block.
-/

namespace Uncompile

namespace Dependencies

/-- Everything that some block reads or writes. -/
def tracked (deps : Dependencies) : List Symbol :=
  OrderedSet.addAll [] (deps.blocks.flatMap fun entry => entry.2.reads ++ entry.2.writes)

variable {deps : Dependencies} {symbol : Symbol} {address : Address}

theorem mem_blocks_of_block? {block : BlockDeps} (hblock : deps.block? address = some block) :
    (address, block) ∈ deps.blocks := by
  obtain ⟨entry, hfind, rfl⟩ := Option.map_eq_some_iff.mp hblock
  have haddress : entry.1 = address := by simpa using List.find?_some hfind
  rw [← haddress]
  exact List.mem_of_find?_eq_some hfind

theorem mem_tracked_of_mem_reads (hread : symbol ∈ deps.reads address) :
    symbol ∈ deps.tracked := by
  cases hblock : deps.block? address with
  | none => simp [reads, hblock] at hread
  | some block =>
    have hsymbol : symbol ∈ block.reads := by simpa [reads, hblock] using hread
    exact OrderedSet.mem_addAll.mpr (.inr (List.mem_flatMap.mpr
      ⟨_, mem_blocks_of_block? hblock, List.mem_append_left _ hsymbol⟩))

end Dependencies

/-- The symbols found so far to be live at the ends of the blocks of a function. -/
structure LiveTable (deps : Dependencies) where
  table : SortedMap Address (List Symbol)
  tracked : ∀ entry ∈ table.entries, ∀ symbol ∈ entry.2, symbol ∈ deps.tracked

namespace LiveTable

variable {deps : Dependencies}

/-- The symbols live at the end of a block. -/
def liveAt (live : LiveTable deps) (address : Address) : List Symbol :=
  (live.table.get? address).getD []

theorem mem_tracked {live : LiveTable deps} {address : Address} {symbol : Symbol}
    (hlive : symbol ∈ live.liveAt address) : symbol ∈ deps.tracked := by
  cases hfound : live.table.get? address with
  | none => simp [liveAt, hfound] at hlive
  | some symbols =>
    have hlisted : symbol ∈ symbols := by simpa [liveAt, hfound] using hlive
    exact live.tracked _ (SortedMap.mem_of_get? hfound) symbol hlisted

/-- Where control can leave the function everything is live, and nothing elsewhere. -/
def start (deps : Dependencies) : LiveTable deps where
  table := .ofList (deps.blocks.map fun entry =>
    (entry.1, if entry.2.escapes then deps.tracked else []))
  tracked entry hentry symbol hsymbol := by
    obtain ⟨block, -, rfl⟩ := List.mem_map.mp (SortedMap.mem_of_mem_ofList hentry)
    dsimp only at hsymbol
    split at hsymbol
    · exact hsymbol
    · exact absurd hsymbol List.not_mem_nil

/-- What is live at the end of a block by what is known of its successors: what they read,
and what is live at their ends and not written by them. -/
def liveAfter (live : LiveTable deps) (address : Address) : List Symbol :=
  (deps.successors address).foldl (fun out next =>
      OrderedSet.addAll (OrderedSet.addAll out (deps.reads next))
        ((live.liveAt next).filter fun symbol => symbol ∉ deps.writes next))
    (live.liveAt address)

theorem mem_liveAfter {live : LiveTable deps} {address : Address} {symbol : Symbol} :
    symbol ∈ live.liveAfter address ↔ symbol ∈ live.liveAt address ∨
      ∃ next ∈ deps.successors address, symbol ∈ deps.reads next ∨
        symbol ∈ live.liveAt next ∧ symbol ∉ deps.writes next := by
  rw [liveAfter]
  generalize live.liveAt address = out
  induction deps.successors address generalizing out with
  | nil => simp
  | cons next rest ih =>
    rw [List.foldl_cons, ih]
    simp only [OrderedSet.mem_addAll, List.mem_filter, decide_eq_true_eq, List.mem_cons,
      or_and_right, exists_or, exists_eq_left, or_assoc]

/-- What was live stays live, and in its place. -/
theorem exists_liveAfter (live : LiveTable deps) (address : Address) :
    ∃ more, live.liveAfter address = live.liveAt address ++ more ∧
      ∀ symbol ∈ more, symbol ∉ live.liveAt address := by
  rw [liveAfter]
  generalize live.liveAt address = out
  induction deps.successors address generalizing out with
  | nil => exact ⟨[], by simp, by simp⟩
  | cons next rest ih =>
    rw [List.foldl_cons]
    obtain ⟨read, hread, hreadNew⟩ := OrderedSet.exists_addAll out (deps.reads next)
    obtain ⟨passed, hpassed, hpassedNew⟩ := OrderedSet.exists_addAll (out ++ read)
      ((live.liveAt next).filter fun symbol => symbol ∉ deps.writes next)
    rw [hread, hpassed]
    obtain ⟨more, hmore, hmoreNew⟩ := ih (out ++ read ++ passed)
    refine ⟨read ++ (passed ++ more), by rw [hmore]; simp, fun symbol hsymbol hout => ?_⟩
    rcases List.mem_append.mp hsymbol with hmem | hmem
    · exact hreadNew symbol hmem hout
    · rcases List.mem_append.mp hmem with hmem | hmem
      · exact hpassedNew symbol hmem (List.mem_append_left _ hout)
      · exact hmoreNew symbol hmem (by simp [hout])

theorem liveAfter_tracked (live : LiveTable deps) (address : Address) :
    ∀ symbol ∈ live.liveAfter address, symbol ∈ deps.tracked := by
  intro symbol hsymbol
  rcases mem_liveAfter.mp hsymbol with hlive | ⟨next, -, hread | ⟨hlive, -⟩⟩
  · exact mem_tracked hlive
  · exact Dependencies.mem_tracked_of_mem_reads hread
  · exact mem_tracked hlive

/-- Enters what is live at the end of a block by what is known of its successors. -/
def update (live : LiveTable deps) (address : Address) : LiveTable deps where
  table := live.table.insert address (live.liveAfter address)
  tracked entry hentry := by
    rcases SortedMap.mem_insertEntry hentry with rfl | hmem
    · exact live.liveAfter_tracked address
    · exact live.tracked entry hmem

theorem liveAt_update (live : LiveTable deps) (address other : Address) :
    (live.update address).liveAt other =
      if address = other then live.liveAfter address else live.liveAt other := by
  rw [liveAt, update, SortedMap.get?_insert]
  split <;> rfl

/-- A block is visited: its entry is written if it has grown. The flag says whether any
entry has been written. -/
def visit (state : LiveTable deps × Bool) (address : Address) : LiveTable deps × Bool :=
  if (state.1.liveAfter address).length = (state.1.liveAt address).length then state
  else (state.1.update address, true)

/-- Visits all blocks, the last first. -/
def sweep (live : LiveTable deps) : LiveTable deps × Bool :=
  deps.addresses.reverse.foldl visit (live, false)

/-- The places of a table: blocks with what is live at their ends. -/
def places (live : LiveTable deps) : List (Address × Symbol) :=
  deps.addresses.flatMap fun address => (live.liveAt address).map fun symbol => (address, symbol)

/-- The places that are not in the table. -/
def missing (live : LiveTable deps) : Nat :=
  Worklist.unseen
    (deps.addresses.flatMap fun address => deps.tracked.map fun symbol => (address, symbol))
    live.places

theorem mem_places {live : LiveTable deps} {address : Address} {symbol : Symbol} :
    (address, symbol) ∈ live.places ↔ address ∈ deps.addresses ∧ symbol ∈ live.liveAt address := by
  simp [places]

/-- An entry that has the same length has not changed; otherwise a place is added. -/
theorem visit_cases (state : LiveTable deps × Bool) {address : Address}
    (haddress : address ∈ deps.addresses) :
    state.1.liveAfter address = state.1.liveAt address ∧ visit state address = state ∨
      visit state address = (state.1.update address, true) ∧
        (state.1.update address).missing < state.1.missing := by
  obtain ⟨more, hmore, hnew⟩ := state.1.exists_liveAfter address
  rw [visit]
  cases more with
  | nil =>
    rw [List.append_nil] at hmore
    exact .inl ⟨hmore, if_pos (by rw [hmore])⟩
  | cons symbol rest =>
    refine .inr ⟨if_neg (by rw [hmore]; simp), ?_⟩
    have hsymbol : symbol ∈ state.1.liveAfter address := by simp [hmore]
    refine Worklist.unseen_lt (a := (address, symbol)) ?_ ?_ ?_ ?_
    · simpa using ⟨haddress, state.1.liveAfter_tracked address symbol hsymbol⟩
    · exact fun hmem => hnew symbol List.mem_cons_self (mem_places.mp hmem).2
    · exact mem_places.mpr ⟨haddress, by rw [liveAt_update, if_pos rfl]; exact hsymbol⟩
    · rintro ⟨other, live⟩ hmem
      obtain ⟨hother, hlive⟩ := mem_places.mp hmem
      refine mem_places.mpr ⟨hother, ?_⟩
      rw [liveAt_update]
      split
      · rename_i hsame
        exact mem_liveAfter.mpr (.inl (hsame ▸ hlive))
      · exact hlive

/-- A sweep that writes no entry leaves the table, which then says nothing new of any
block; any other sweep adds a place. -/
theorem sweep_cases (live : LiveTable deps) :
    live.sweep = (live, false) ∧
        (∀ address ∈ deps.addresses, live.liveAfter address = live.liveAt address) ∨
      live.sweep.2 = true ∧ live.sweep.1.missing < live.missing := by
  have hfold : ∀ addresses : List Address, (∀ address ∈ addresses, address ∈ deps.addresses) →
      ∀ state : LiveTable deps × Bool,
        addresses.foldl visit state = state ∧
            (∀ address ∈ addresses, state.1.liveAfter address = state.1.liveAt address) ∨
          (addresses.foldl visit state).2 = true ∧
            (addresses.foldl visit state).1.missing < state.1.missing := by
    intro addresses
    induction addresses with
    | nil => exact fun _ state => .inl ⟨rfl, by simp⟩
    | cons address rest ih =>
      intro hmembers state
      obtain ⟨haddress, hrest⟩ := List.forall_mem_cons.mp hmembers
      rw [List.foldl_cons]
      rcases visit_cases state haddress with ⟨hsame, hvisit⟩ | ⟨hvisit, hless⟩
      · rw [hvisit]
        rcases ih hrest state with ⟨hfold, hclosed⟩ | hgrown
        · exact .inl ⟨hfold, List.forall_mem_cons.mpr ⟨hsame, hclosed⟩⟩
        · exact .inr hgrown
      · rw [hvisit]
        rcases ih hrest (state.1.update address, true) with ⟨hfold, -⟩ | ⟨hflag, hgrown⟩
        · rw [hfold]
          exact .inr ⟨rfl, hless⟩
        · exact .inr ⟨hflag, Nat.lt_trans hgrown hless⟩
  rcases hfold deps.addresses.reverse (by simp) (live, false) with ⟨hsweep, hclosed⟩ | hgrown
  · exact .inl ⟨hsweep, fun address haddress => hclosed address (by simpa using haddress)⟩
  · exact .inr hgrown

/-- Sweeps until a sweep writes no entry. -/
def settle (live : LiveTable deps) : LiveTable deps :=
  if live.sweep.2 then live.sweep.1.settle else live.sweep.1
termination_by live.missing
decreasing_by
  rename_i hflag
  rcases live.sweep_cases with ⟨hsweep, -⟩ | ⟨-, hless⟩
  · rw [hsweep] at hflag
    exact absurd hflag Bool.false_ne_true
  · exact hless

end LiveTable

namespace Dependencies

/-- The symbols that are live at the ends of the blocks. -/
def liveness (deps : Dependencies) : LiveTable deps := (LiveTable.start deps).settle

/-- The symbols that are live at the end of a block. -/
def liveOut (deps : Dependencies) (address : Address) : List Symbol :=
  deps.liveness.liveAt address

/-- Keeps of each block's writes those that are live at its end. -/
def eliminateDeadWrites (deps : Dependencies) : Dependencies :=
  let live := deps.liveness
  { deps with
    blocks := deps.blocks.map fun entry =>
      let kept := live.liveAt entry.1
      (entry.1, { entry.2 with writes := entry.2.writes.filter fun symbol => symbol ∈ kept }) }

end Dependencies

end Uncompile
