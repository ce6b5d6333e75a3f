import Uncompile.Dataflow.Inputs
import Uncompile.Proofs.Dataflow.Sweep

/-!
# What the search for inputs finds

Values come into a function at its entry and at blocks without predecessor. The
blocks that can be reached from there with a symbol unwritten are a closure, computed
forwards. The search goes the other way, from a block back through predecessors that
do not write the symbol, and stops at once where a value can come in. It visits
every block of the backward closure or stops before, so it says the same.
-/

namespace Uncompile

namespace Dependencies

variable {deps : Dependencies} {symbol : Symbol} {address block : Address}

/-- Where values from outside come in: the entry and the blocks without
predecessor. -/
def sources (deps : Dependencies) : List Address :=
  deps.addresses.filter fun address =>
    address = deps.entry || (deps.predecessors address).isEmpty

/-- The blocks that can be reached with a symbol unwritten since a source. -/
def unwrittenAt (deps : Dependencies) (symbol : Symbol) : List Address :=
  closure deps.addresses
    (fun address => if symbol ∈ deps.writes address then [] else deps.successors address)
    deps.sources

theorem mem_sources (haddress : address ∈ deps.addresses)
    (hsource : address = deps.entry ∨ deps.predecessors address = []) :
    address ∈ deps.sources := by
  simpa [sources, haddress] using hsource

theorem mem_unwrittenAt_of_next {next : Address} (hunwritten : address ∈ deps.unwrittenAt symbol)
    (hwrites : symbol ∉ deps.writes address) (hnext : next ∈ deps.successors address)
    (hmember : next ∈ deps.addresses) : next ∈ deps.unwrittenAt symbol := by
  apply mem_closure_of_step hunwritten hmember
  rw [if_neg hwrites]
  exact hnext

/-! ## The backward search -/

/-- The blocks before an address that do not write the symbol. -/
def passing (deps : Dependencies) (symbol : Symbol) (address : Address) : List Address :=
  (deps.predecessors address).filter fun earlier => symbol ∉ deps.writes earlier

/-- The blocks that lead to an address with the symbol unwritten from there on. -/
def leadingTo (deps : Dependencies) (symbol : Symbol) (block : Address) : List Address :=
  closure deps.addresses (deps.passing symbol) [block]

/-- A value can come to a block at once: from outside, or from the entry. -/
def OpenAt (deps : Dependencies) (symbol : Symbol) (address : Address) : Prop :=
  deps.predecessors address = [] ∨ deps.entry ∈ deps.passing symbol address

theorem mem_passing : address ∈ deps.passing symbol block ↔
    address ∈ deps.predecessors block ∧ symbol ∉ deps.writes address := by
  rw [passing, List.mem_filter, decide_eq_true_eq]

/-- A search that has come so far without success: nothing can come in at the blocks that
it has passed through. -/
structure Shut (deps : Dependencies) (symbol : Symbol) (block : Address)
    (visited stack : List Address) : Prop
    extends Worklist.Searched deps.addresses (deps.passing symbol) [block] visited stack where
  shut : ∀ address ∈ visited, address ∉ stack → ¬ deps.OpenAt symbol address

namespace Shut

variable {visited : List Address}

/-- Passing through a block visits the new ones before it. -/
theorem step {current : Address} {rest : List Address}
    (h : deps.Shut symbol block visited (current :: rest))
    (hclosed : ¬ deps.OpenAt symbol current) :
    deps.Shut symbol block (visited ++ Worklist.fresh visited (deps.passing symbol current))
      ((Worklist.fresh visited (deps.passing symbol current)).reverse ++ rest) where
  toSearched := by
    refine h.toSearched.step (fun address => ?_) fun address => ?_
    · have hmember : address ∈ deps.passing symbol current → address ∈ deps.addresses :=
        fun hpassing => mem_addresses_of_mem_predecessors (mem_passing.mp hpassing).1
      rw [Worklist.mem_fresh, and_iff_left_of_imp hmember]
    · rw [List.mem_append, List.mem_reverse, or_comm]
  shut address haddress hwaits := by
    rw [List.mem_append, List.mem_reverse, not_or] at hwaits
    have hvisited := (List.mem_append.mp haddress).resolve_right hwaits.1
    by_cases hlast : address = current
    · exact hlast ▸ hclosed
    · exact h.shut address hvisited (by simp [hlast, hwaits.2])

theorem comesUnwritten_iff {stack : List Address} (h : deps.Shut symbol block visited stack) :
    deps.comesUnwritten symbol visited stack ↔
      ∃ address ∈ deps.leadingTo symbol block, deps.OpenAt symbol address := by
  fun_induction comesUnwritten deps symbol visited stack with
  | case1 visited =>
      refine ⟨fun hfalse => absurd hfalse Bool.false_ne_true, ?_⟩
      rintro ⟨address, hleads, hopen⟩
      exact absurd hopen (h.shut address (h.mem_iff.mpr hleads) List.not_mem_nil)
  | case2 visited current rest predecessors passing hopen =>
      rw [Bool.or_eq_true, List.isEmpty_iff, decide_eq_true_eq] at hopen
      have hleads := h.sound current (h.waits current List.mem_cons_self)
      exact ⟨fun _ => ⟨current, hleads, hopen⟩, fun _ => rfl⟩
  | case3 visited current rest predecessors passing hclosed found ih =>
      rw [Bool.or_eq_true, List.isEmpty_iff, decide_eq_true_eq] at hclosed
      exact ih (h.step hclosed)

end Shut

/-- The search ends with success exactly if it can come to a block where a value can
come in. -/
theorem comesUnwritten_iff :
    deps.comesUnwritten symbol [block] [block] ↔
      ∃ address ∈ deps.leadingTo symbol block, deps.OpenAt symbol address := by
  have hstart : deps.Shut symbol block [block] [block] :=
    { toSearched := .init, shut := fun _ hvisited hwaits => absurd hvisited hwaits }
  exact hstart.comesUnwritten_iff

/-! ## The two directions -/

theorem mem_addresses_of_leadingTo (hblock : block ∈ deps.addresses)
    (hleads : address ∈ deps.leadingTo symbol block) : address ∈ deps.addresses := by
  rcases mem_closure_cases hleads with hstart | ⟨hmember, -⟩
  · exact List.mem_singleton.mp hstart ▸ hblock
  · exact hmember

/-- What leads to a block brings the symbol there unwritten. -/
theorem mem_unwrittenAt_of_leadingTo (hnodup : deps.addresses.Nodup)
    (hblock : block ∈ deps.addresses) (hleads : address ∈ deps.leadingTo symbol block)
    (hunwritten : address ∈ deps.unwrittenAt symbol) : block ∈ deps.unwrittenAt symbol := by
  have hboth : address ∈ deps.addresses ∧
      (address ∈ deps.unwrittenAt symbol → block ∈ deps.unwrittenAt symbol) := by
    refine closure_induction (P := fun address => address ∈ deps.addresses ∧
      (address ∈ deps.unwrittenAt symbol → block ∈ deps.unwrittenAt symbol)) ?_ ?_ hleads
    · exact List.forall_mem_singleton.mpr ⟨hblock, id⟩
    · rintro a b ⟨hmember, hforward⟩ hcarrier hstep
      obtain ⟨hpredecessor, hwrites⟩ := mem_passing.mp hstep
      exact ⟨hcarrier, fun hb => hforward (mem_unwrittenAt_of_next hb hwrites
        ((mem_predecessors_iff hnodup).mp hpredecessor) hmember)⟩
  exact hboth.2 hunwritten

/-- Where a value can come in, the symbol is unwritten. -/
theorem mem_unwrittenAt_of_openAt (hnodup : deps.addresses.Nodup)
    (haddress : address ∈ deps.addresses) (hopen : deps.OpenAt symbol address) :
    address ∈ deps.unwrittenAt symbol := by
  rcases hopen with hnone | hentry
  · exact subset_closure (mem_sources haddress (.inr hnone))
  · obtain ⟨hpredecessor, hwrites⟩ := mem_passing.mp hentry
    have hsource : deps.entry ∈ deps.unwrittenAt symbol :=
      subset_closure (mem_sources (mem_addresses_of_mem_predecessors hpredecessor) (.inl rfl))
    exact mem_unwrittenAt_of_next hsource hwrites ((mem_predecessors_iff hnodup).mp hpredecessor)
      haddress

/-- Going back from a block that is reached with the symbol unwritten leads to where its
value comes in. -/
theorem exists_openAt_of_mem_unwrittenAt (hunwritten : block ∈ deps.unwrittenAt symbol) :
    block = deps.entry ∨
      ∃ address ∈ deps.leadingTo symbol block, deps.OpenAt symbol address := by
  have hboth : block ∈ deps.addresses ∧ (block = deps.entry ∨
      ∃ address ∈ deps.leadingTo symbol block, deps.OpenAt symbol address) := by
    refine closure_induction (P := fun block => block ∈ deps.addresses ∧ (block = deps.entry ∨
      ∃ address ∈ deps.leadingTo symbol block, deps.OpenAt symbol address)) ?_ ?_ hunwritten
    · intro source hsource
      obtain ⟨hmember, hsource⟩ := List.mem_filter.mp hsource
      rw [Bool.or_eq_true, decide_eq_true_eq, List.isEmpty_iff] at hsource
      exact ⟨hmember, hsource.imp_right fun hnone =>
        ⟨source, subset_closure (List.mem_singleton_self _), .inl hnone⟩⟩
    · rintro earlier next ⟨hearlier, hcomes⟩ hmember hstep
      refine ⟨hmember, .inr ?_⟩
      split at hstep
      · exact absurd hstep List.not_mem_nil
      · rename_i hwrites
        have hpassing : earlier ∈ deps.passing symbol next :=
          mem_passing.mpr ⟨mem_predecessors_of_mem_successors hstep, hwrites⟩
        have hself : next ∈ deps.leadingTo symbol next :=
          subset_closure (List.mem_singleton_self _)
        rcases hcomes with rfl | ⟨address, hleads, hopen⟩
        · exact ⟨next, hself, .inr hpassing⟩
        · exact ⟨address, mem_closure_trans (mem_closure_of_step hself hearlier hpassing) hleads,
            hopen⟩
  exact hboth.2

/-- The search succeeds exactly for the blocks that are reached with the symbol
unwritten. -/
theorem reachesUnwritten_iff (hnodup : deps.addresses.Nodup) (hblock : block ∈ deps.addresses) :
    deps.reachesUnwritten symbol block ↔ block ∈ deps.unwrittenAt symbol := by
  rw [reachesUnwritten, Bool.or_eq_true, decide_eq_true_eq, comesUnwritten_iff]
  constructor
  · rintro (hentry | ⟨address, hleads, hopen⟩)
    · exact subset_closure (mem_sources hblock (.inl hentry))
    · have haddress := mem_addresses_of_leadingTo hblock hleads
      exact mem_unwrittenAt_of_leadingTo hnodup hblock hleads
        (mem_unwrittenAt_of_openAt hnodup haddress hopen)
  · exact exists_openAt_of_mem_unwrittenAt

end Dependencies

end Uncompile
