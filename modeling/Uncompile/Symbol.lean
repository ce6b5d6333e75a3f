import Uncompile.Register
import Uncompile.SortedMap

/-!
# Symbols

What an expression can mention: registers, flags, the stack pointer at function
entry (`framePtr`), a value nothing is known about, and names given from
outside. Maps keyed by symbols list registers first and names last.
-/

namespace Uncompile

inductive Symbol where
  | reg (reg : Reg)
  | flag (flag : Flag)
  | special (reg : SpecialReg)
  | framePtr
  | unknown
  | named (name : String)
  deriving DecidableEq, Hashable

namespace Symbol

/-- Registers and flags are the symbols that data flow follows. -/
def isRegister : Symbol → Bool
  | reg _ => true
  | flag _ => true
  | _ => false

def asReg? : Symbol → Option Reg
  | reg r => some r
  | _ => none

def text : Symbol → String
  | reg r => r.name
  | flag f => f.text
  | special r => r.text
  | framePtr => "frameptr"
  | unknown => "unknown"
  | named name => name

/-- Position of a symbol that is not a name: kind, family and number. -/
def rank : Symbol → Nat × Nat × Nat
  | reg r => (0, 0, r.index)
  | flag f => (1, 0, f.index)
  | special r => (2, r.rank)
  | framePtr => (3, 0, 0)
  | unknown => (4, 0, 0)
  | named _ => (5, 0, 0)

/-- The order of symbols in listings; names compare as text. -/
def before : Symbol → Symbol → Bool
  | named left, named right => left < right
  | left, right =>
    let (a, b, c) := left.rank
    let (a', b', c') := right.rank
    a < a' || a == a' && (b < b' || b == b' && c < c')

instance : LT Symbol := ⟨fun left right => left.before right⟩

instance : DecidableLT Symbol := fun left right =>
  inferInstanceAs (Decidable (left.before right = true))

/-- One position comes before another: by kind, then by family, then by number. -/
def RankLt (a b : Nat × Nat × Nat) : Prop :=
  a.1 < b.1 ∨ a.1 = b.1 ∧ (a.2.1 < b.2.1 ∨ a.2.1 = b.2.1 ∧ a.2.2 < b.2.2)

theorem lt_iff {left right : Symbol} :
    left < right ↔ RankLt left.rank right.rank ∨
      ∃ a b, left = named a ∧ right = named b ∧ a < b := by
  change left.before right = true ↔ _
  unfold before
  split
  · simp [rank, RankLt]
  · rename_i hnames
    rw [or_iff_left fun ⟨a, b, hleft, hright, _⟩ => hnames a b hleft hright]
    simp [RankLt]

/-- Only names share a position. -/
theorem eq_or_named_of_rank_eq {left right : Symbol} (h : left.rank = right.rank) :
    left = right ∨ ∃ a b, left = named a ∧ right = named b := by
  cases left <;> cases right <;> simp_all [rank]
  case reg.reg => exact Reg.eq_of_index_eq h
  case flag.flag => exact Flag.eq_of_index_eq h
  case special.special => exact SpecialReg.eq_of_rank_eq h

instance : Std.Irrefl (α := Symbol) (· < ·) where
  irrefl symbol h := by
    rcases lt_iff.mp h with hrank | ⟨a, b, rfl, hname, hlt⟩
    · simp [RankLt] at hrank
    · cases hname
      exact String.lt_irrefl a hlt

instance : Trans (α := Symbol) (· < ·) (· < ·) (· < ·) where
  trans {left middle right} hleft hright := by
    rw [lt_iff] at hleft hright ⊢
    rcases hleft with hleft | ⟨a, b, rfl, rfl, hleft⟩ <;>
      rcases hright with hright | ⟨b', c, hmiddle, rfl, hright⟩
    · simp only [RankLt] at hleft hright ⊢
      omega
    · rw [hmiddle] at hleft
      exact .inl hleft
    · exact .inl hright
    · cases hmiddle
      exact .inr ⟨a, c, rfl, rfl, String.lt_trans hleft hright⟩

instance : Std.Trichotomous (α := Symbol) (· < ·) where
  trichotomous left right hleft hright := by
    rw [lt_iff] at hleft hright
    have hrank : left.rank = right.rank := by
      ext <;> simp only [RankLt] at hleft hright <;> omega
    rcases eq_or_named_of_rank_eq hrank with heq | ⟨a, b, rfl, rfl⟩
    · exact heq
    · have hle : ¬a < b := fun hlt => hleft (.inr ⟨a, b, rfl, rfl, hlt⟩)
      have hge : ¬b < a := fun hlt => hright (.inr ⟨b, a, rfl, rfl, hlt⟩)
      rw [String.le_antisymm (String.not_lt.mp hge) (String.not_lt.mp hle)]

end Symbol

end Uncompile
