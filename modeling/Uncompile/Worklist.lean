import Uncompile.OrderedSet

/-!
# Worklists

Searches of a finite graph keep what they have seen and a list of members that
wait to be followed. What a member leads to waits in turn, unless it has been seen
before. As long as everything found lies in a finite carrier, each round makes what is
unseen or waits one less, so the search ends.
-/

namespace Uncompile

namespace Worklist

variable {α : Type} [DecidableEq α]

/-- The candidates that have not been seen, each once. -/
def fresh (seen candidates : List α) : List α :=
  OrderedSet.addAll [] (candidates.filter fun a => a ∉ seen)

/-- The number of members of a carrier that have not been seen. -/
def unseen (carrier seen : List α) : Nat := (carrier.filter fun a => a ∉ seen).length

theorem mem_fresh {seen candidates : List α} {a : α} :
    a ∈ fresh seen candidates ↔ a ∈ candidates ∧ a ∉ seen := by
  simp [fresh, OrderedSet.mem_addAll]

theorem unseen_lt {carrier seen more : List α} {a : α} (hcarrier : a ∈ carrier) (hnew : a ∉ seen)
    (hmore : a ∈ more) (hkept : ∀ b ∈ seen, b ∈ more) :
    unseen carrier more < unseen carrier seen := by
  have hfilter : carrier.filter (fun b => b ∉ more) =
      (carrier.filter fun b => b ∉ seen).filter fun b => b ∉ more := by
    rw [List.filter_filter]
    refine List.filter_congr fun b _ => ?_
    simpa using fun hout hin => hout (hkept b hin)
  rw [unseen, unseen, hfilter, List.length_filter_lt_length_iff_exists]
  exact ⟨a, List.mem_filter.mpr ⟨hcarrier, by simpa using hnew⟩, by simpa using hmore⟩

theorem unseen_append_le {carrier : List α} (more : List α) {seen : List α}
    (hcarrier : ∀ a ∈ more, a ∈ carrier) (hnew : ∀ a ∈ more, a ∉ seen) (hnodup : more.Nodup) :
    unseen carrier (seen ++ more) + more.length ≤ unseen carrier seen := by
  induction more generalizing seen with
  | nil => simp
  | cons a rest ih =>
    rw [List.forall_mem_cons] at hcarrier hnew
    rw [List.nodup_cons] at hnodup
    have hrest : ∀ b ∈ rest, b ∉ seen ++ [a] := by
      intro b hb hmem
      rcases List.mem_append.mp hmem with hseen | hsame
      · exact hnew.2 b hb hseen
      · exact hnodup.1 (List.mem_singleton.mp hsame ▸ hb)
    have hstep : unseen carrier (seen ++ [a]) < unseen carrier seen :=
      unseen_lt hcarrier.1 hnew.1 (by simp) fun _ => List.mem_append_left _
    have hle := ih hcarrier.2 hrest hnodup.2
    rw [List.append_assoc, List.singleton_append] at hle
    rw [List.length_cons]
    omega

/-- A round of a search: one member is taken up, and what is fresh has been seen and
waits. -/
theorem round_lt {carrier seen candidates waiting rest : List α}
    (hcandidates : ∀ a ∈ candidates, a ∈ carrier)
    (hwaiting : waiting.length = rest.length + (fresh seen candidates).length) (first : α) :
    unseen carrier (seen ++ fresh seen candidates) + waiting.length <
      unseen carrier seen + (first :: rest).length := by
  have hle : unseen carrier (seen ++ fresh seen candidates) + (fresh seen candidates).length ≤
      unseen carrier seen :=
    unseen_append_le _ (fun a ha => hcandidates a (mem_fresh.mp ha).1)
      (fun a ha => (mem_fresh.mp ha).2) (OrderedSet.nodup_addAll List.nodup_nil _)
  rw [List.length_cons]
  omega

/-- All that a queue leads to inside a carrier, added to what has been seen in the order
in which it is found. -/
def explore (carrier : List α) (next : α → List α) (seen queue : List α) : List α :=
  match queue with
  | [] => seen
  | first :: rest =>
    let found := fresh seen ((next first).filter fun a => a ∈ carrier)
    explore carrier next (seen ++ found) (rest ++ found)
termination_by unseen carrier seen + queue.length
decreasing_by
  refine round_lt (fun a ha => ?_) List.length_append first
  simpa using (List.mem_filter.mp ha).2

end Worklist

end Uncompile
