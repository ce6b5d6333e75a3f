import Mathlib.Data.List.Basic
import Uncompile.Frame.StackArgs

/-!
# The slots of stack parameters

The stack parameters of a function stand for argument slots in increasing order:
first all slots up to the last mentioned one among the leading slots, then the
mentioned ones behind these. A parameter so stands at the position of its slot, less
the slots before it that are left out.
-/

namespace Uncompile

namespace StackArgs

/-! ## Slots in order -/

/-- The slots that become parameters. -/
def slots (widths : SlotWidths) (maxSlots : Nat) : List Nat :=
  List.range (((widths.keys.filter (· < maxSlots)).getLast?.map (· + 1)).getD 0) ++
    widths.keys.filter (maxSlots ≤ ·)

/-- The leading slots end before the first slot in which gaps are not filled. -/
theorem lt_of_mem_leading {widths : SlotWidths} {maxSlots index : Nat}
    (hindex : index ∈
      List.range (((widths.keys.filter (· < maxSlots)).getLast?.map (· + 1)).getD 0)) :
    index < maxSlots := by
  rw [List.mem_range] at hindex
  cases hlast : (widths.keys.filter (· < maxSlots)).getLast? with
  | none => simp [hlast] at hindex
  | some last =>
      have hmem := (List.mem_filter.mp (List.mem_of_getLast? hlast)).2
      simp only [hlast, Option.map_some, Option.getD_some, decide_eq_true_eq] at hindex hmem
      omega

theorem pairwise_slots (widths : SlotWidths) (maxSlots : Nat) :
    (slots widths maxSlots).Pairwise (· < ·) := by
  rw [slots, List.pairwise_append]
  refine ⟨List.pairwise_lt_range, widths.pairwise_keys.filter _, ?_⟩
  intro leading hleading far hfar
  have hlt := lt_of_mem_leading hleading
  have hle := of_decide_eq_true (List.mem_filter.mp hfar).2
  omega

/-- In an increasing list, a number stands at the position that it would have among all
numbers, less those before it that the list leaves out. -/
theorem position_add_missing {numbers : List Nat} (h : numbers.Pairwise (· < ·))
    {position number : Nat} (hnumber : numbers[position]? = some number) :
    position + ((List.range number).filter fun other => other ∉ numbers).length = number := by
  obtain ⟨hposition, hat⟩ := List.getElem?_eq_some_iff.mp hnumber
  have hsplit : numbers = numbers.take position ++ number :: numbers.drop (position + 1) := by
    rw [← hat, ← List.drop_eq_getElem_cons hposition, List.take_append_drop]
  have hordered := h
  rw [hsplit, List.pairwise_append, List.pairwise_cons] at hordered
  obtain ⟨_, ⟨hafter, _⟩, hbefore⟩ := hordered
  have hbelow : ∀ other, other ∈ (List.range number).filter (· ∈ numbers) ↔
      other ∈ numbers.take position := by
    intro other
    rw [List.mem_filter, List.mem_range, decide_eq_true_iff]
    constructor
    · rintro ⟨hlt, hmem⟩
      rw [hsplit, List.mem_append, List.mem_cons] at hmem
      rcases hmem with htaken | rfl | hdropped
      · exact htaken
      · exact absurd hlt (Nat.lt_irrefl _)
      · exact absurd (hafter other hdropped) (Nat.lt_asymm hlt)
    · intro htaken
      exact ⟨hbefore other htaken number List.mem_cons_self, List.mem_of_mem_take htaken⟩
  have hnodup : numbers.Nodup := h.imp Nat.ne_of_lt
  have hcount : ((List.range number).filter (· ∈ numbers)).length = position := by
    have hperm : ((List.range number).filter (· ∈ numbers)).Perm (numbers.take position) :=
      (List.perm_ext_iff_of_nodup (List.nodup_range.filter _)
        (hnodup.sublist (List.take_sublist _ _))).mpr hbelow
    rw [hperm.length_eq, List.length_take, Nat.min_eq_left (Nat.le_of_lt hposition)]
  have hall := List.length_eq_length_filter_add (l := List.range number)
    fun other => decide (other ∈ numbers)
  simp only [List.length_range, hcount, ← decide_not] at hall
  exact hall.symm

/-- Every slot before a leading one is a parameter too. -/
theorem mem_slots_of_lt {widths : SlotWidths} {maxSlots index smaller : Nat}
    (hindex : index ∈ slots widths maxSlots) (hleading : index < maxSlots)
    (hsmaller : smaller < index) : smaller ∈ slots widths maxSlots := by
  rw [slots, List.mem_append] at hindex ⊢
  rcases hindex with hnear | hfar
  · left
    rw [List.mem_range] at hnear ⊢
    omega
  · have hle := of_decide_eq_true (List.mem_filter.mp hfar).2
    omega

end StackArgs

open StackArgs

/-- The stack parameters are those of the slots, in order, each with the width that
its slot is accessed with. -/
theorem stackParams_eq (body : List Stmt) (pointerSize maxSlots : Nat) :
    (stackParams body pointerSize maxSlots).1 =
      (slots (slotWidths (max pointerSize 1) body) maxSlots).map fun index =>
        slotParam pointerSize (max pointerSize 1) index
          ((slotWidths (max pointerSize 1) body).get? index) := by
  have hfar : ((slotWidths (max pointerSize 1) body).entries.filter fun entry =>
        maxSlots ≤ entry.1).map (fun entry =>
          slotParam pointerSize (max pointerSize 1) entry.1 (some entry.2)) =
      ((slotWidths (max pointerSize 1) body).keys.filter (maxSlots ≤ ·)).map fun index =>
        slotParam pointerSize (max pointerSize 1) index
          ((slotWidths (max pointerSize 1) body).get? index) := by
    rw [SortedMap.keys, List.filter_map, List.map_map]
    apply List.map_congr_left
    intro entry hentry
    rw [Function.comp_apply, SortedMap.get?_of_mem (List.mem_of_mem_filter hentry)]
  simp only [stackParams, slots, List.map_append, hfar]
  split
  · rename_i last hlast
    rw [hlast]
    rfl
  · rename_i hnone
    rw [hnone]
    rfl

end Uncompile
