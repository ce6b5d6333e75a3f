import Mathlib.Tactic.ByContra
import Uncompile.Worklist

/-!
# Closure of a finite set under a step

Everything a finite analysis here asks of a graph is a reachability question:
which blocks belong to a function, where a register is live, which pending
assignments have to be written out. `closure` answers it level by level and
stops when a level adds nothing. It contains its start and everything in the
carrier that a step from it reaches, and nothing that its start does not reach.
Any search with these properties finds the same, in whatever order it goes.
-/

namespace Uncompile

variable {α : Type} [DecidableEq α] {carrier : List α} {next : α → List α}

/-- The members of `carrier` outside `seen` that one step from `seen` reaches. -/
def frontier (carrier : List α) (next : α → List α) (seen : List α) : List α :=
  let reached := seen.flatMap next
  carrier.filter fun a => a ∉ seen ∧ a ∈ reached

theorem mem_frontier {seen : List α} {a : α} :
    a ∈ frontier carrier next seen ↔
      a ∈ carrier ∧ a ∉ seen ∧ ∃ s ∈ seen, a ∈ next s := by
  simp [frontier, List.mem_flatMap]

/-- What is reached from `seen` by steps inside `carrier`, `seen` included. -/
def closure (carrier : List α) (next : α → List α) (seen : List α) : List α :=
  if frontier carrier next seen = [] then seen
  else closure carrier next (seen ++ frontier carrier next seen)
termination_by Worklist.unseen carrier seen
decreasing_by
  rename_i hne
  obtain ⟨a, ha⟩ := List.exists_mem_of_ne_nil _ hne
  obtain ⟨hcarrier, hnew, -⟩ := mem_frontier.mp ha
  exact Worklist.unseen_lt hcarrier hnew (List.mem_append_right _ ha)
    fun _ => List.mem_append_left _

theorem subset_closure {seen : List α} {a : α} (ha : a ∈ seen) : a ∈ closure carrier next seen := by
  fun_induction closure carrier next seen with
  | case1 seen _ => exact ha
  | case2 seen _ ih => exact ih (List.mem_append_left _ ha)

theorem closure_nil : closure carrier next [] = [] := by
  rw [closure, if_pos]
  simp [frontier]

theorem mem_closure_of_step {seen : List α} {a b : α} (ha : a ∈ closure carrier next seen)
    (hb : b ∈ carrier) (hstep : b ∈ next a) : b ∈ closure carrier next seen := by
  fun_induction closure carrier next seen with
  | case1 seen hdone =>
      by_contra hnot
      have hfrontier : b ∈ frontier carrier next seen := mem_frontier.mpr ⟨hb, hnot, a, ha, hstep⟩
      rw [hdone] at hfrontier
      exact List.not_mem_nil hfrontier
  | case2 seen _ ih => exact ih ha

/-- What holds of the start and goes from a member to what its step reaches holds
of the closure. -/
theorem closure_induction {P : α → Prop} {seen : List α} (hseen : ∀ a ∈ seen, P a)
    (hstep : ∀ a b, P a → b ∈ carrier → b ∈ next a → P b) {b : α}
    (hb : b ∈ closure carrier next seen) : P b := by
  fun_induction closure carrier next seen with
  | case1 seen _ => exact hseen b hb
  | case2 seen _ ih =>
      refine ih (fun c hc => ?_) hb
      rcases List.mem_append.mp hc with hc | hc
      · exact hseen c hc
      · obtain ⟨hcarrier, _, a, ha, hnext⟩ := mem_frontier.mp hc
        exact hstep a c (hseen a ha) hcarrier hnext

/-- A member of a closure is in its start or is reached from a member. -/
theorem mem_closure_cases {seen : List α} {b : α} (hb : b ∈ closure carrier next seen) :
    b ∈ seen ∨ b ∈ carrier ∧ ∃ a ∈ closure carrier next seen, b ∈ next a := by
  have hboth : b ∈ closure carrier next seen ∧
      (b ∈ seen ∨ b ∈ carrier ∧ ∃ a ∈ closure carrier next seen, b ∈ next a) := by
    refine closure_induction (P := fun b => b ∈ closure carrier next seen ∧
      (b ∈ seen ∨ b ∈ carrier ∧ ∃ a ∈ closure carrier next seen, b ∈ next a)) ?_ ?_ hb
    · intro a ha
      exact ⟨subset_closure ha, Or.inl ha⟩
    · rintro a b ⟨ha, _⟩ hcarrier hstep
      exact ⟨mem_closure_of_step ha hcarrier hstep, Or.inr ⟨hcarrier, a, ha, hstep⟩⟩
  exact hboth.2

/-- A closure contains the closures of its members. -/
theorem mem_closure_trans {start : List α} {a b : α} (hb : b ∈ closure carrier next start)
    (ha : a ∈ closure carrier next [b]) : a ∈ closure carrier next start :=
  closure_induction (List.forall_mem_singleton.mpr hb)
    (fun _ _ hc hcarrier hstep => mem_closure_of_step hc hcarrier hstep) ha

/-- A set between a start and its closure that no step leaves is the closure. -/
theorem mem_iff_mem_closure {start found : List α} (hstart : ∀ a ∈ start, a ∈ found)
    (hsound : ∀ a ∈ found, a ∈ closure carrier next start)
    (hclosed : ∀ a ∈ found, ∀ b ∈ carrier, b ∈ next a → b ∈ found) {a : α} :
    a ∈ found ↔ a ∈ closure carrier next start :=
  ⟨hsound a, closure_induction hstart fun a b ha hb hstep => hclosed a ha b hb hstep⟩

/-! ## Searches -/

namespace Worklist

/-- How far a search has come. All it has seen belongs to the closure, and what no longer
waits has been followed. -/
structure Searched (carrier : List α) (next : α → List α) (start seen waiting : List α) :
    Prop where
  started : ∀ a ∈ start, a ∈ seen
  waits : ∀ a ∈ waiting, a ∈ seen
  sound : ∀ a ∈ seen, a ∈ closure carrier next start
  followed : ∀ a ∈ seen, a ∉ waiting → ∀ b ∈ carrier, b ∈ next a → b ∈ seen

namespace Searched

variable {start seen : List α} {a : α}

theorem init : Searched carrier next start start start :=
  ⟨fun _ => id, fun _ => id, fun _ => subset_closure,
    fun _ hseen hwaits => absurd hseen hwaits⟩

/-- Following a place adds what is new behind it, whatever the order of what waits. -/
theorem step {first : α} {rest found waiting : List α}
    (h : Searched carrier next start seen (first :: rest))
    (hfound : ∀ a, a ∈ found ↔ (a ∈ next first ∧ a ∈ carrier) ∧ a ∉ seen)
    (hwaiting : ∀ a, a ∈ waiting ↔ a ∈ rest ∨ a ∈ found) :
    Searched carrier next start (seen ++ found) waiting := by
  obtain ⟨hfirst, hrest⟩ := List.forall_mem_cons.mp h.waits
  refine ⟨fun a ha => List.mem_append_left _ (h.started a ha), ?_, ?_, ?_⟩
  · intro a ha
    exact List.mem_append.mpr (((hwaiting a).mp ha).imp_left (hrest a))
  · intro a ha
    rcases List.mem_append.mp ha with ha | ha
    · exact h.sound a ha
    · obtain ⟨⟨hstep, hcarrier⟩, -⟩ := (hfound a).mp ha
      exact mem_closure_of_step (h.sound first hfirst) hcarrier hstep
  · intro a ha hout b hcarrier hstep
    rw [hwaiting, not_or] at hout
    have hseen := (List.mem_append.mp ha).resolve_right hout.2
    by_cases hb : b ∈ seen
    · exact List.mem_append_left _ hb
    · -- what is seen and no longer waits has been followed before or just now
      by_cases hlast : a = first
      · subst hlast
        exact List.mem_append_right _ ((hfound b).mpr ⟨⟨hstep, hcarrier⟩, hb⟩)
      · have hbefore : a ∉ first :: rest := by simp [hlast, hout.1]
        exact absurd (h.followed a hseen hbefore b hcarrier hstep) hb

/-- A search that waits for nothing has found the closure. -/
theorem mem_iff (h : Searched carrier next start seen []) :
    a ∈ seen ↔ a ∈ closure carrier next start :=
  mem_iff_mem_closure h.started h.sound fun a ha => h.followed a ha List.not_mem_nil

theorem mem_explore_iff {queue : List α} (h : Searched carrier next start seen queue) :
    a ∈ explore carrier next seen queue ↔ a ∈ closure carrier next start := by
  fun_induction explore carrier next seen queue with
  | case1 seen => exact h.mem_iff
  | case2 seen first rest found ih =>
      refine ih (h.step (fun b => ?_) fun b => List.mem_append)
      rw [mem_fresh, List.mem_filter, decide_eq_true_eq]

end Searched

/-- A search with a queue finds the closure of what it starts from. -/
theorem mem_explore_iff {start : List α} {a : α} :
    a ∈ explore carrier next start start ↔ a ∈ closure carrier next start :=
  Searched.init.mem_explore_iff

end Worklist

end Uncompile
