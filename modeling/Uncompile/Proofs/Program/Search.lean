import Mathlib.Data.List.Basic
import Mathlib.Tactic.ByContra
import Uncompile.Disassembler

/-!
# What a backward search has seen

The places that a search has seen are either waiting or followed: where the
search ends it has its candidate, and the places before any other have been seen
in turn. Nothing is waiting in the end, unless the budget was exceeded and there
is no candidate at all.

What a search has seen matters only as a set, so a list serves as well. Unlike the
search with a hash set, the one with a list can be evaluated by definition.
-/

namespace Uncompile

/-! ## The block table -/

namespace Program

variable {program : Program} {address next : Address} {block : Block}

/-- The last block that starts at or before a block's address is this block. -/
theorem blockBefore?_of_block? (hblock : program.block? address = some block) :
    program.blockBefore? address = some block := by
  obtain ⟨before, after, hsplit⟩ := List.append_of_mem (SortedMap.mem_of_get? hblock)
  have hsorted := program.blocks.sorted
  rw [hsplit, List.pairwise_append, List.pairwise_cons] at hsorted
  obtain ⟨_, ⟨hafter, _⟩, hbefore⟩ := hsorted
  have hkept : before.filter (fun entry => entry.1 ≤ address) = before := by
    apply List.filter_eq_self.mpr
    intro entry hentry
    exact decide_eq_true (Nat.le_of_lt (hbefore entry hentry _ List.mem_cons_self))
  have hdropped : after.filter (fun entry => entry.1 ≤ address) = [] := by
    apply List.filter_eq_nil_iff.mpr
    intro entry hentry
    simpa using hafter entry hentry
  rw [blockBefore?, hsplit, List.filter_append, hkept, List.filter_cons, hdropped]
  simp

theorem locate?_first (hblock : program.block? address = some block) {first : Instruction}
    (hfirst : block.instructions.head? = some first) (haddress : first.address = address) :
    program.locate? address = some (block, 0) := by
  obtain ⟨rest, hinsns⟩ := List.head?_eq_some_iff.mp hfirst
  simp [locate?, blockBefore?_of_block? hblock, hinsns, List.findIdx?_cons, haddress]

theorem mem_values_of_locate? {site : Address} {index : Nat}
    (hsite : program.locate? site = some (block, index)) : block ∈ program.blocks.values := by
  obtain ⟨found, hfound, hindex⟩ := Option.bind_eq_some_iff.mp hsite
  obtain ⟨_, _, hpair⟩ := Option.bind_eq_some_iff.mp hindex
  obtain ⟨rfl, _⟩ := Prod.mk.inj (Option.some.inj hpair)
  obtain ⟨entry, hlast, rfl⟩ := Option.map_eq_some_iff.mp hfound
  have hentry := List.mem_of_mem_filter (List.mem_of_getLast? hlast)
  exact List.mem_map.mpr ⟨entry, hentry, rfl⟩

/-- Following an edge backwards carries the expression through the block. -/
theorem mem_visitsBefore (hblock : program.block? address = some block)
    (hnext : next ∈ block.successors) (e : Expr) :
    (address, rewind block.instructions e) ∈ program.visitsBefore next e := by
  have hpredecessor : address ∈ program.predecessors next :=
    List.mem_map.mpr ⟨block, List.mem_filter.mpr ⟨SortedMap.mem_values_of_get? hblock,
      decide_eq_true hnext⟩, address_of_block? hblock⟩
  exact List.mem_filterMap.mpr ⟨address, hpredecessor, by rw [hblock]; rfl⟩

/-! ## A search that can be evaluated -/

/-- The search with the places it has seen in a list. -/
def searchListed (program : Program) (snapshot : Address) :
    Nat → List Visit → List Visit → List Expr → List Expr
  | _, [], _, found => found
  | 0, _ :: _, _, _ => []
  | budget + 1, visit :: rest, seen, found =>
    if visit ∈ seen then searchListed program snapshot budget rest seen found
    else
      let (e, settled) := program.settle visit
      if settled || visit.1 = snapshot || (program.predecessors visit.1).isEmpty then
        searchListed program snapshot budget rest (visit :: seen) (addCandidate found e)
      else
        searchListed program snapshot budget ((program.visitsBefore visit.1 e).reverse ++ rest)
          (visit :: seen) found

theorem search_eq_searchListed (snapshot : Address) (budget : Nat) (stack : List Visit)
    (seen : Std.HashSet Visit) (found : List Expr) {listed : List Visit}
    (hlisted : ∀ visit, visit ∈ seen ↔ visit ∈ listed) :
    program.search snapshot budget stack seen found =
      program.searchListed snapshot budget stack listed found := by
  have hinsert : ∀ {seen : Std.HashSet Visit} {listed : List Visit} (visit : Visit),
      (∀ v, v ∈ seen ↔ v ∈ listed) → ∀ v, v ∈ seen.insert visit ↔ v ∈ visit :: listed := by
    intro seen listed visit h v
    rw [Std.HashSet.mem_insert, beq_iff_eq, eq_comm, List.mem_cons, h]
  fun_induction program.search snapshot budget stack seen found generalizing listed with
  | case1 => rw [searchListed]
  | case2 => rw [searchListed]
  | case3 budget visit rest seen found hseen ih =>
      rw [searchListed, if_pos ((hlisted visit).mp hseen)]
      exact ih hlisted
  | case4 budget visit rest seen found hseen e settled hsettle hends ih =>
      rw [searchListed, if_neg (fun hmem => hseen ((hlisted visit).mpr hmem)), hsettle]
      dsimp only
      rw [if_pos hends]
      exact ih (hinsert visit hlisted)
  | case5 budget visit rest seen found hseen e settled hsettle hends ih =>
      rw [searchListed, if_neg (fun hmem => hseen ((hlisted visit).mpr hmem)), hsettle]
      dsimp only
      rw [if_neg hends]
      exact ih (hinsert visit hlisted)

def backtraceListed (program : Program) (symbol : Symbol) (site snapshot : Address) : List Expr :=
  match program.locate? site with
  | none => []
  | some (block, index) =>
    let start := rewind (block.instructions.take index) (.sym symbol)
    program.searchListed snapshot program.budget [(block.address, start)] [] []

theorem backtrace_eq_backtraceListed : program.backtrace = program.backtraceListed := by
  funext symbol site snapshot
  rw [backtrace, backtraceListed]
  cases program.locate? site with
  | none => rfl
  | some place => exact search_eq_searchListed snapshot _ _ ∅ _ fun visit => by simp

/-! ## The search -/

/-- The search goes no further from a place. -/
def Ends (program : Program) (snapshot : Address) (visit : Visit) : Prop :=
  (program.settle visit).2 || visit.1 = snapshot || (program.predecessors visit.1).isEmpty

instance (program : Program) (snapshot : Address) (visit : Visit) :
    Decidable (program.Ends snapshot visit) :=
  inferInstanceAs (Decidable (_ = true))

/-- What has been seen is followed up to what is waiting. -/
structure Followed (program : Program) (snapshot : Address) (seen waiting : Visit → Prop)
    (found : List Expr) : Prop where
  ends : ∀ visit, seen visit → program.Ends snapshot visit → (program.settle visit).1 ∈ found
  goes : ∀ visit, seen visit → ¬ program.Ends snapshot visit →
    ∀ earlier ∈ program.visitsBefore visit.1 (program.settle visit).1,
      seen earlier ∨ waiting earlier

theorem mem_addCandidate {found : List Expr} {e candidate : Expr} :
    candidate ∈ addCandidate found e ↔ candidate ∈ found ∨ candidate = e := by
  rw [addCandidate]
  split
  · rename_i hmem
    exact ⟨Or.inl, fun h => h.elim id fun heq => heq ▸ hmem⟩
  · simp

namespace Followed

variable {snapshot : Address} {seen waiting : Visit → Prop} {found : List Expr} {visit : Visit}

/-- A place that has been seen before is dropped. -/
theorem drop (h : Followed program snapshot seen (fun v => v = visit ∨ waiting v) found)
    (hseen : seen visit) : Followed program snapshot seen waiting found where
  ends := h.ends
  goes v hv hgoes earlier hearlier := by
    rcases h.goes v hv hgoes earlier hearlier with hmem | rfl | hmem
    · exact Or.inl hmem
    · exact Or.inl hseen
    · exact Or.inr hmem

/-- Where the search ends, a candidate is added. -/
theorem finish (h : Followed program snapshot seen (fun v => v = visit ∨ waiting v) found)
    (hends : program.Ends snapshot visit) :
    Followed program snapshot (fun v => v = visit ∨ seen v) waiting
      (addCandidate found (program.settle visit).1) where
  ends v hv hv' := by
    rcases hv with rfl | hv
    · exact mem_addCandidate.mpr (Or.inr rfl)
    · exact mem_addCandidate.mpr (Or.inl (h.ends v hv hv'))
  goes v hv hgoes earlier hearlier := by
    rcases hv with rfl | hv
    · exact absurd hends hgoes
    · rcases h.goes v hv hgoes earlier hearlier with hmem | heq | hmem
      · exact Or.inl (Or.inr hmem)
      · exact Or.inl (Or.inl heq)
      · exact Or.inr hmem

/-- Elsewhere the places before it are put among those that wait. -/
theorem expand (h : Followed program snapshot seen (fun v => v = visit ∨ waiting v) found)
    (hends : ¬ program.Ends snapshot visit) :
    Followed program snapshot (fun v => v = visit ∨ seen v)
      (fun v => v ∈ program.visitsBefore visit.1 (program.settle visit).1 ∨ waiting v) found where
  ends v hv hv' := by
    rcases hv with rfl | hv
    · exact absurd hv' hends
    · exact h.ends v hv hv'
  goes v hv hgoes earlier hearlier := by
    rcases hv with rfl | hv
    · exact Or.inr (Or.inl hearlier)
    · rcases h.goes v hv hgoes earlier hearlier with hmem | heq | hmem
      · exact Or.inl (Or.inr hmem)
      · exact Or.inl (Or.inl heq)
      · exact Or.inr (Or.inr hmem)

theorem congr {seen' waiting' : Visit → Prop}
    (h : Followed program snapshot seen waiting found) (hseen : ∀ v, seen v ↔ seen' v)
    (hwaiting : ∀ v, waiting v ↔ waiting' v) : Followed program snapshot seen' waiting' found where
  ends v hv := h.ends v ((hseen v).mpr hv)
  goes v hv hgoes earlier hearlier :=
    (h.goes v ((hseen v).mpr hv) hgoes earlier hearlier).imp (hseen earlier).mp
      (hwaiting earlier).mp

end Followed

/-- A search that finds anything has followed all it has seen. -/
theorem searchListed_followed {snapshot : Address} {budget : Nat} {stack : List Visit}
    {seen : List Visit} {found : List Expr}
    (h : Followed program snapshot (· ∈ seen) (· ∈ stack) found)
    (hresult : program.searchListed snapshot budget stack seen found ≠ []) :
    ∃ known : Visit → Prop, (∀ visit, visit ∈ seen ∨ visit ∈ stack → known visit) ∧
      Followed program snapshot known (fun _ => False)
        (program.searchListed snapshot budget stack seen found) := by
  fun_induction program.searchListed snapshot budget stack seen found with
  | case1 budget seen found =>
      exact ⟨(· ∈ seen), fun visit hvisit => hvisit.resolve_right List.not_mem_nil,
        h.congr (fun _ => Iff.rfl) fun _ => by simp⟩
  | case2 => exact absurd rfl hresult
  | case3 budget visit rest seen found hseen ih =>
      have hmem : visit ∈ seen := hseen
      obtain ⟨known, hknown, hfollowed⟩ := ih ((h.congr (fun _ => Iff.rfl) fun _ =>
        List.mem_cons).drop hmem) hresult
      refine ⟨known, fun v hv => hknown v ?_, hfollowed⟩
      rcases hv with hv | hv
      · exact Or.inl hv
      · rcases List.mem_cons.mp hv with rfl | hrest
        · exact Or.inl hmem
        · exact Or.inr hrest
  | case4 budget visit rest seen found _ e settled hsettle hends ih =>
      have hfinish := (h.congr (fun _ => Iff.rfl) fun _ => List.mem_cons).finish
        (show program.Ends snapshot visit by rw [Ends, hsettle]; exact hends)
      rw [hsettle] at hfinish
      obtain ⟨known, hknown, hfollowed⟩ := ih (hfinish.congr (fun _ => List.mem_cons.symm)
        fun _ => Iff.rfl) hresult
      refine ⟨known, fun v hv => hknown v ?_, hfollowed⟩
      rcases hv with hv | hv
      · exact Or.inl (List.mem_cons.mpr (Or.inr hv))
      · exact (List.mem_cons.mp hv).imp_left fun heq => List.mem_cons.mpr (Or.inl heq)
  | case5 budget visit rest seen found _ e settled hsettle hends ih =>
      have hexpand := (h.congr (fun _ => Iff.rfl) fun _ => List.mem_cons).expand
        (show ¬ program.Ends snapshot visit by rw [Ends, hsettle]; exact hends)
      rw [hsettle] at hexpand
      obtain ⟨known, hknown, hfollowed⟩ := ih (hexpand.congr (fun _ => List.mem_cons.symm)
        fun _ => by simp) hresult
      refine ⟨known, fun v hv => hknown v ?_, hfollowed⟩
      rcases hv with hv | hv
      · exact Or.inl (List.mem_cons.mpr (Or.inr hv))
      · rcases List.mem_cons.mp hv with heq | hrest
        · exact Or.inl (List.mem_cons.mpr (Or.inl heq))
        · exact Or.inr (List.mem_append_right _ hrest)

/-- Nothing has been seen when the search starts. -/
theorem followed_start (snapshot : Address) (stack : List Visit) :
    Followed program snapshot (· ∈ ([] : List Visit)) (· ∈ stack) [] where
  ends _ hv := absurd hv List.not_mem_nil
  goes _ hv := absurd hv List.not_mem_nil

/-- A backtrace that finds anything has followed the symbol through all places it
could come from, beginning with the block of the instruction. -/
theorem backtrace_followed {site snapshot : Address} {index : Nat}
    (hsite : program.locate? site = some (block, index)) {symbol : Symbol}
    (hresult : program.backtrace symbol site snapshot ≠ []) :
    ∃ known : Visit → Prop,
      known (block.address, rewind (block.instructions.take index) (.sym symbol)) ∧
        Followed program snapshot known (fun _ => False)
          (program.backtrace symbol site snapshot) := by
  rw [backtrace_eq_backtraceListed, backtraceListed, hsite] at hresult ⊢
  obtain ⟨known, hknown, hfollowed⟩ := searchListed_followed (followed_start snapshot _) hresult
  exact ⟨known, hknown _ (Or.inr (List.mem_singleton_self _)), hfollowed⟩

end Program

/-- The disassembler of a program, with searches that can be evaluated. -/
def Disassembly.listed (disassembly : Disassembly) : Disassembler where
  view table :=
    { (disassembly.withBindings table).code with
      resolve := (disassembly.withBindings table).program.backtraceListed }
  bindings := disassembly.program.bindings

theorem Disassembly.disassembler_eq_listed (disassembly : Disassembly) :
    disassembly.disassembler = disassembly.listed := by
  rw [listed]
  simp only [← Program.backtrace_eq_backtraceListed]
  rfl

end Uncompile
