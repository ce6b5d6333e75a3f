import Uncompile.Recovered
import Uncompile.SortedMap

/-!
# Stack parameters

The parameters of a function are read off the stack variables that its body
mentions. Slots below the last mentioned one are parameters too, unused ones;
beyond a given number of slots only mentioned slots count.
-/

namespace Uncompile

namespace StackArgs

/-- The widest access to each argument slot. -/
abbrev SlotWidths := SortedMap Nat Nat

/-- Records an access to a stack variable, if it is an argument. -/
def record (slot : Nat) (widths : SlotWidths) (access : Int × Nat) : SlotWidths :=
  if 4 ≤ access.1 then
    let index := (access.1 - 4).toNat / slot
    widths.insert index (max ((widths.get? index).getD 0) access.2)
  else widths

def slotWidths (slot : Nat) (body : List Stmt) : SlotWidths :=
  (body.flatMap Stmt.stackVars).foldl (record slot) .empty

def slotOffset (slot index : Nat) : Int := 4 + index * slot

/-- The parameter in a slot, of the width it is accessed with, if it is. -/
def slotParam (pointerSize slot index : Nat) (width : Option Nat) : Param :=
  let offset := slotOffset slot index
  { name := stackVarName offset,
    width := match width with
      | some width => min width pointerSize
      | none => pointerSize,
    unused := width.isNone,
    storage := .stack offset }

end StackArgs

open StackArgs in
/-- The stack parameters of a body, and the offset of the last one if it lies
beyond the slots in which gaps are filled in. -/
def stackParams (body : List Stmt) (pointerSize maxSlots : Nat) : List Param × Option Int :=
  let slot := max pointerSize 1
  let widths := slotWidths slot body
  let near := widths.keys.filter (· < maxSlots)
  let dense := match near.getLast? with
    | some last => (List.range (last + 1)).map fun index =>
        slotParam pointerSize slot index (widths.get? index)
    | none => []
  let far := (widths.entries.filter fun entry => maxSlots ≤ entry.1).map fun entry =>
    slotParam pointerSize slot entry.1 (some entry.2)
  let sparse := match widths.keys.getLast? with
    | some last => if maxSlots ≤ last then some (slotOffset slot last) else none
    | none => none
  (dense ++ far, sparse)

end Uncompile
