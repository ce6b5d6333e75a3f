import Mathlib.Data.List.Forall2
import Mathlib.Data.List.Induction
import Mathlib.Order.Bounds.Basic
import Uncompile.Proofs.C.Occurrence
import Uncompile.Proofs.Frame.Slots

/-!
# Argument slots that a body refers to

An argument slot is referred to by the stack variables that start in it, wherever in a
body they stand. The stack parameters of a body are the slots it refers to, filled up
below the last one among the leading slots, each as wide as the widest access that
starts in it. The offset of a parameter never exceeds that of an access in the body, so
it can be computed wherever the offsets of the body can be written down.
-/

namespace Uncompile

theorem Stmt.mem_stackVars_iff {stmt : Stmt} {offset : Int} {size : Nat} :
    (offset, size) ∈ stmt.stackVars ↔ stmt.Mentions (.stackVar offset size) := by
  rw [stackVars, List.mem_filterMap, ← mem_subterms_iff]
  constructor
  · rintro ⟨e, he, heq⟩
    cases e <;> simp_all [CExpr.asStackVar?]
  · intro h
    exact ⟨_, h, rfl⟩

/-! ## Slots and their accesses -/

/-- A body has an access that starts in an argument slot. The arguments start behind the
four bytes of the return address. -/
def SlotAccess (body : List Stmt) (pointerSize index : Nat) (offset : Int) (size : Nat) : Prop :=
  (∃ stmt ∈ body, stmt.Mentions (.stackVar offset size)) ∧
    4 ≤ offset ∧ (offset - 4) / pointerSize = index

def Refers (body : List Stmt) (pointerSize index : Nat) : Prop :=
  ∃ offset size, SlotAccess body pointerSize index offset size

/-- A slot starts no later than what is accessed in it. -/
theorem SlotAccess.start_le {body : List Stmt} {pointerSize index size : Nat} {offset : Int}
    (h : SlotAccess body pointerSize index offset size) (hsize : 1 ≤ pointerSize) :
    4 + (index * pointerSize : Int) ≤ offset := by
  obtain ⟨_, _, hindex⟩ := h
  have hle := Int.ediv_mul_le (offset - 4) (b := pointerSize) (by omega)
  rw [hindex] at hle
  omega

namespace StackArgs

/-- The greatest of some numbers, if there are any. -/
def IsWidest (sizes : Set Nat) : Option Nat → Prop
  | none => sizes = ∅
  | some widest => IsGreatest sizes widest

theorem isWidest_insert {sizes : Set Nat} {width : Option Nat} (h : IsWidest sizes width)
    (size : Nat) : IsWidest (insert size sizes) (some (max (width.getD 0) size)) := by
  cases width with
  | none =>
      rw [show sizes = ∅ from h]
      simp [IsWidest]
  | some widest =>
      rw [max_comm]
      exact IsGreatest.insert size h

theorem isWidest_record (slot : Nat) (accesses : List (Int × Nat)) (index : Nat) :
    IsWidest {size | ∃ offset, (offset, size) ∈ accesses ∧ 4 ≤ offset ∧
        (offset - 4).toNat / slot = index}
      ((accesses.foldl (record slot) .empty).get? index) := by
  induction accesses using List.reverseRecOn with
  | nil => simp [IsWidest]
  | append_singleton earlier access ih =>
      rw [List.foldl_append, List.foldl_cons, List.foldl_nil, record]
      split
      · rename_i hargument
        rw [SortedMap.get?_insert]
        split
        · rename_i hindex
          subst hindex
          convert isWidest_insert ih access.2 using 1
          ext size
          simp only [Set.mem_insert_iff, Set.mem_ofPred_eq, List.mem_append, List.mem_singleton]
          grind
        · convert ih using 1
          grind
      · convert ih using 1
        grind

/-- A slot has the width of the widest access that starts in it. -/
theorem isWidest_slotWidths (body : List Stmt) (slot index : Nat) :
    IsWidest {size | ∃ offset, SlotAccess body slot index offset size}
      ((slotWidths slot body).get? index) := by
  rw [slotWidths]
  convert isWidest_record slot (body.flatMap Stmt.stackVars) index using 1
  ext size
  apply exists_congr
  intro offset
  rw [List.mem_flatMap, SlotAccess]
  simp only [Stmt.mem_stackVars_iff]
  apply and_congr_right'
  apply and_congr_right
  intro hargument
  obtain ⟨distance, hdistance⟩ := Int.eq_ofNat_of_zero_le (show 0 ≤ offset - 4 by omega)
  rw [hdistance, Int.toNat_natCast]
  norm_cast

theorem IsWidest.isSome_iff {sizes : Set Nat} {width : Option Nat} (h : IsWidest sizes width) :
    width.isSome ↔ sizes.Nonempty := by
  cases width with
  | none =>
      rw [show sizes = ∅ from h]
      simp
  | some widest => simpa using ⟨widest, h.1⟩

theorem isSome_slotWidths_iff {body : List Stmt} {slot index : Nat} :
    ((slotWidths slot body).get? index).isSome ↔ Refers body slot index := by
  rw [(isWidest_slotWidths body slot index).isSome_iff]
  exact exists_comm

theorem mem_keys_slotWidths {body : List Stmt} {slot index : Nat} :
    index ∈ (slotWidths slot body).keys ↔ Refers body slot index := by
  rw [← isSome_slotWidths_iff, SortedMap.isSome_get?_iff]

/-- The last number of an increasing list is its greatest one. -/
theorem getLast?_eq_some_iff {numbers : List Nat} (h : numbers.Pairwise (· < ·)) {last : Nat} :
    numbers.getLast? = some last ↔ IsGreatest {number | number ∈ numbers} last := by
  have hgreatest : ∀ {last}, numbers.getLast? = some last →
      IsGreatest {number | number ∈ numbers} last := by
    intro last hlast
    refine ⟨List.mem_of_getLast? hlast, ?_⟩
    intro number hnumber
    obtain ⟨earlier, rfl⟩ := List.getLast?_eq_some_iff.mp hlast
    rcases List.mem_append.mp hnumber with hearlier | hnumber
    · exact Nat.le_of_lt ((List.pairwise_append.mp h).2.2 _ hearlier _ List.mem_cons_self)
    · exact Nat.le_of_eq (List.mem_singleton.mp hnumber)
  constructor
  · exact hgreatest
  · intro hlast
    cases hfound : numbers.getLast? with
    | none => exact absurd hlast.1 (by simp [List.getLast?_eq_none_iff.mp hfound])
    | some found => rw [(hgreatest hfound).unique hlast]

/-- The last mentioned slot among the leading ones. -/
theorem getLast?_leading_iff {body : List Stmt} {slot maxSlots last : Nat} :
    ((slotWidths slot body).keys.filter (· < maxSlots)).getLast? = some last ↔
      IsGreatest {index | Refers body slot index ∧ index < maxSlots} last := by
  rw [getLast?_eq_some_iff ((slotWidths slot body).pairwise_keys.filter _)]
  simp only [List.mem_filter, mem_keys_slotWidths, decide_eq_true_iff]

theorem mem_slots_iff {body : List Stmt} {slot maxSlots index : Nat} :
    index ∈ slots (slotWidths slot body) maxSlots ↔
      Refers body slot index ∨
        ∃ last, IsGreatest {other | Refers body slot other ∧ other < maxSlots} last ∧
          index < last := by
  simp only [slots, List.mem_append, List.mem_range, List.mem_filter, mem_keys_slotWidths,
    decide_eq_true_iff, ← getLast?_leading_iff]
  cases hlast : ((slotWidths slot body).keys.filter (· < maxSlots)).getLast? with
  | none =>
      have hnear : ∀ other, Refers body slot other → maxSlots ≤ other := by
        simpa [mem_keys_slotWidths] using List.getLast?_eq_none_iff.mp hlast
      simpa using hnear index
  | some last =>
      obtain ⟨⟨hrefers, _⟩, hgreatest⟩ := getLast?_leading_iff.mp hlast
      simp only [Option.map_some, Option.getD_some, Option.some.injEq, exists_eq_left']
      constructor
      · rintro (hle | ⟨hindex, _⟩)
        · rcases Nat.lt_succ_iff_lt_or_eq.mp hle with hlt | rfl
          · exact .inr hlt
          · exact .inl hrefers
        · exact .inl hindex
      · rintro (hindex | hlt)
        · by_cases hnear : index < maxSlots
          · exact .inl (Nat.lt_succ_of_le (hgreatest ⟨hindex, hnear⟩))
          · exact .inr ⟨hindex, Nat.le_of_not_lt hnear⟩
        · exact .inl (Nat.lt_succ_of_lt hlt)

end StackArgs

open StackArgs

/-! ## Parameters -/

/-- A parameter stands for an argument slot of a body. -/
structure Param.StandsFor (param : Param) (body : List Stmt) (pointerSize index : Nat) :
    Prop where
  storage : param.storage = .stack (4 + index * pointerSize)
  name : param.name = stackVarName (4 + index * pointerSize)
  unused_iff : param.unused = true ↔ ¬ Refers body pointerSize index
  width_unused : ¬ Refers body pointerSize index → param.width = pointerSize
  width_used : Refers body pointerSize index →
    ∃ widest, IsGreatest {size | ∃ offset, SlotAccess body pointerSize index offset size} widest ∧
      param.width = min pointerSize widest

theorem standsFor_slotParam (body : List Stmt) (pointerSize index : Nat) :
    (slotParam pointerSize pointerSize index
      ((slotWidths pointerSize body).get? index)).StandsFor body pointerSize index := by
  have hwidest := isWidest_slotWidths body pointerSize index
  have hsome : ((slotWidths pointerSize body).get? index).isSome ↔
      Refers body pointerSize index := isSome_slotWidths_iff
  cases hwidth : (slotWidths pointerSize body).get? index with
  | none =>
      have hunused : ¬ Refers body pointerSize index := by simpa [hwidth] using hsome
      exact ⟨rfl, rfl, by simpa [slotParam] using hunused, fun _ => rfl, fun h => absurd h hunused⟩
  | some width =>
      rw [hwidth] at hwidest
      have hused : Refers body pointerSize index := by simpa [hwidth] using hsome
      exact ⟨rfl, rfl, by simpa [slotParam] using hused, fun h => absurd hused h,
        fun _ => ⟨width, hwidest, Nat.min_comm _ _⟩⟩

/-- No slot that becomes a parameter starts behind every access. -/
theorem exists_access_of_mem_slots {body : List Stmt} {pointerSize maxSlots index : Nat}
    (hsize : 1 ≤ pointerSize) (hindex : index ∈ slots (slotWidths pointerSize body) maxSlots) :
    ∃ other offset size, SlotAccess body pointerSize other offset size ∧
      4 + (index * pointerSize : Int) ≤ offset := by
  rcases mem_slots_iff.mp hindex with ⟨offset, size, haccess⟩ | ⟨last, ⟨⟨hlast, _⟩, _⟩, hlt⟩
  · exact ⟨index, offset, size, haccess, haccess.start_le hsize⟩
  · obtain ⟨offset, size, haccess⟩ := hlast
    refine ⟨last, offset, size, haccess, le_trans ?_ (haccess.start_le hsize)⟩
    have hle : index * pointerSize ≤ last * pointerSize := Nat.mul_le_mul_right _ hlt.le
    omega

theorem stackParams_sparse_iff (body : List Stmt) {pointerSize : Nat} (hsize : 1 ≤ pointerSize)
    (maxSlots : Nat) (offset : Int) :
    (stackParams body pointerSize maxSlots).2 = some offset ↔
      ∃ last, IsGreatest {index | Refers body pointerSize index} last ∧ maxSlots ≤ last ∧
        offset = 4 + last * pointerSize := by
  have hlast : ∀ last, (slotWidths pointerSize body).keys.getLast? = some last ↔
      IsGreatest {index | Refers body pointerSize index} last := by
    intro last
    rw [getLast?_eq_some_iff (slotWidths pointerSize body).pairwise_keys]
    simp only [mem_keys_slotWidths]
  simp only [stackParams, Nat.max_eq_left hsize, ← hlast]
  cases hkeys : (slotWidths pointerSize body).keys.getLast? with
  | none => simp
  | some last =>
      simp only [Option.some.injEq, exists_eq_left']
      split
      · rename_i hfar
        simp only [Option.some.injEq, slotOffset, hfar, true_and]
        exact eq_comm
      · rename_i hnear
        simp [hnear]

/-- The stack parameters of a body stand, in order, for the argument slots that it refers
to and those below the last such slot among the first `maxSlots`. The second result is
there exactly if the body refers to a slot behind these. -/
theorem stackParams_refers (body : List Stmt) {pointerSize : Nat} (hsize : 1 ≤ pointerSize)
    (maxSlots : Nat) :
    ∃ indices : List Nat,
      (indices.map fun index : Nat => (4 + index * pointerSize : Int)).Pairwise (· < ·) ∧
      List.Forall₂ (fun index param => param.StandsFor body pointerSize index) indices
        (stackParams body pointerSize maxSlots).1 ∧
      (∀ index, index ∈ indices ↔
        Refers body pointerSize index ∨
          ∃ last, IsGreatest {other | Refers body pointerSize other ∧ other < maxSlots} last ∧
            index < last) ∧
      (∀ offset, (stackParams body pointerSize maxSlots).2 = some offset ↔
        ∃ last, IsGreatest {index | Refers body pointerSize index} last ∧ maxSlots ≤ last ∧
          offset = 4 + last * pointerSize) ∧
      ∀ index ∈ indices, ∃ other offset size, SlotAccess body pointerSize other offset size ∧
        4 + (index * pointerSize : Int) ≤ offset := by
  refine ⟨slots (slotWidths pointerSize body) maxSlots, ?_, ?_, fun _ => mem_slots_iff,
    stackParams_sparse_iff body hsize maxSlots, fun _ => exists_access_of_mem_slots hsize⟩
  · rw [List.pairwise_map]
    refine (pairwise_slots (slotWidths pointerSize body) maxSlots).imp ?_
    intro index other hlt
    have hlt : index * pointerSize < other * pointerSize := Nat.mul_lt_mul_of_pos_right hlt hsize
    omega
  · rw [stackParams_eq, Nat.max_eq_left hsize, List.forall₂_map_right_iff, List.forall₂_same]
    exact fun index _ => standsFor_slotParam body pointerSize index

/-- A body that refers to the first slot and, within an expression, to the middle of the
third: with one leading slot, the third is the last. -/
theorem stackParams_refers_third :
    1 ≤ 4 ∧ ∃ last, IsGreatest {index | Refers [.assign (.stackVar 4 2) (.const 0),
        .ifThen (.unary .not (.stackVar 14 1)) (.ret none)] 4 index} last ∧
      1 ≤ last ∧ (12 : Int) = 4 + last * 4 := by
  refine ⟨by decide, ?_⟩
  obtain ⟨_, _, _, _, hsparse, _⟩ := stackParams_refers [.assign (.stackVar 4 2) (.const 0),
    .ifThen (.unary .not (.stackVar 14 1)) (.ret none)] (show 1 ≤ 4 by decide) 1
  exact (hsparse 12).mp (by decide)

end Uncompile
