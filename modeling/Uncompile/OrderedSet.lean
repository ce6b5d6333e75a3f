/-!
# Sets in order of insertion

A set is a list without repetitions, in the order in which its members were
first added. Adding a member again leaves its place, and so do maps that keep the
order of insertion: an entry that is replaced stays where it is.
-/

namespace Uncompile

namespace OrderedSet

variable {α : Type} [DecidableEq α]

/-- Adds a member at the end, unless it is there. -/
def add (set : List α) (a : α) : List α := if a ∈ set then set else set ++ [a]

def addAll (set : List α) (members : List α) : List α := members.foldl add set

theorem mem_add {set : List α} {a b : α} : b ∈ add set a ↔ b ∈ set ∨ b = a := by
  unfold add
  split
  · constructor
    · exact Or.inl
    · rintro (h | rfl)
      · exact h
      · assumption
  · simp

theorem mem_addAll {set members : List α} {b : α} :
    b ∈ addAll set members ↔ b ∈ set ∨ b ∈ members := by
  induction members generalizing set with
  | nil => simp [addAll]
  | cons a members ih =>
    have hstep : addAll set (a :: members) = addAll (add set a) members := rfl
    rw [hstep, ih, mem_add, List.mem_cons, or_assoc]

theorem nodup_add {set : List α} (hset : set.Nodup) (a : α) : (add set a).Nodup := by
  unfold add
  split
  · exact hset
  · rename_i hnot
    rw [List.nodup_append]
    refine ⟨hset, by simp, ?_⟩
    intro b hb c hc hbc
    rw [List.mem_singleton] at hc
    exact hnot (hc ▸ hbc ▸ hb)

theorem nodup_addAll {set : List α} (hset : set.Nodup) (members : List α) :
    (addAll set members).Nodup := by
  induction members generalizing set with
  | nil => exact hset
  | cons a members ih => exact ih (nodup_add hset a)

/-- Adding only appends, and nothing that was there. -/
theorem exists_addAll (set members : List α) :
    ∃ more, addAll set members = set ++ more ∧ ∀ a ∈ more, a ∉ set := by
  induction members generalizing set with
  | nil => exact ⟨[], by simp [addAll], by simp⟩
  | cons a members ih =>
    obtain ⟨more, hmore, hnew⟩ := ih (add set a)
    have hstep : addAll set (a :: members) = addAll (add set a) members := rfl
    rw [hstep, hmore]
    by_cases ha : a ∈ set
    · rw [add, if_pos ha] at hnew ⊢
      exact ⟨more, rfl, hnew⟩
    · rw [add, if_neg ha] at hnew ⊢
      refine ⟨a :: more, by simp, List.forall_mem_cons.mpr ⟨ha, fun b hb hset => ?_⟩⟩
      exact hnew b hb (List.mem_append_left _ hset)

end OrderedSet

end Uncompile
