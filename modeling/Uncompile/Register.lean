import Uncompile.Word

/-!
# Registers

The general registers of the IA-32 processor, its condition flags and the
privileged registers that only moves and table loads touch.
-/

namespace Uncompile

inductive Reg where
  | eax | ecx | edx | ebx | esp | ebp | esi | edi
  deriving DecidableEq, Hashable

namespace Reg

/-- The registers in encoding order. -/
def all : List Reg := [eax, ecx, edx, ebx, esp, ebp, esi, edi]

def index : Reg → Nat
  | eax => 0 | ecx => 1 | edx => 2 | ebx => 3
  | esp => 4 | ebp => 5 | esi => 6 | edi => 7

theorem eq_of_index_eq {a b : Reg} (h : a.index = b.index) : a = b := by
  cases a <;> cases b <;> first | rfl | cases h

def name : Reg → String
  | eax => "eax" | ecx => "ecx" | edx => "edx" | ebx => "ebx"
  | esp => "esp" | ebp => "ebp" | esi => "esi" | edi => "edi"

/-- The name of the low 16 bits. -/
def halfName : Reg → String
  | eax => "ax" | ecx => "cx" | edx => "dx" | ebx => "bx"
  | esp => "sp" | ebp => "bp" | esi => "si" | edi => "di"

/-- The name of the low byte. The pointer and index registers have none and
keep their 16-bit name. -/
def byteName : Reg → String
  | eax => "al" | ecx => "cl" | edx => "dl" | ebx => "bl"
  | esp => "sp" | ebp => "bp" | esi => "si" | edi => "di"

/-- The name of the view of a register that is `size` bytes wide. -/
def sizedName (reg : Reg) (size : Nat) : String :=
  if size = 1 then reg.byteName
  else if size = 2 then reg.halfName
  else reg.name

end Reg

inductive Flag where
  | z | s | c | o | p
  deriving DecidableEq, Hashable

namespace Flag

def index : Flag → Nat
  | z => 0 | s => 1 | c => 2 | o => 3 | p => 4

theorem eq_of_index_eq {a b : Flag} (h : a.index = b.index) : a = b := by
  cases a <;> cases b <;> first | rfl | cases h

def letter : Flag → String
  | z => "z" | s => "s" | c => "c" | o => "o" | p => "p"

def text (flag : Flag) : String := "eflag_" ++ flag.letter

end Flag

inductive Segment where
  | es | cs | ss | ds | fs | gs
  deriving DecidableEq, Hashable

namespace Segment

def all : List Segment := [es, cs, ss, ds, fs, gs]

def index : Segment → Nat
  | es => 0 | cs => 1 | ss => 2 | ds => 3 | fs => 4 | gs => 5

theorem eq_of_index_eq {a b : Segment} (h : a.index = b.index) : a = b := by
  cases a <;> cases b <;> first | rfl | cases h

def name : Segment → String
  | es => "es" | cs => "cs" | ss => "ss" | ds => "ds" | fs => "fs" | gs => "gs"

end Segment

/-- Control, debug and segment registers and the system table registers. -/
inductive SpecialReg where
  | control (number : Nat)
  | debug (number : Nat)
  | segment (seg : Segment)
  | gdtr | idtr | tr | ldtr
  deriving DecidableEq, Hashable

namespace SpecialReg

/-- Width in bits. -/
def bits : SpecialReg → Nat
  | segment _ => 16
  | _ => 32

def isSegment : SpecialReg → Bool
  | segment _ => true
  | _ => false

def text : SpecialReg → String
  | control number => "cr" ++ decimalText number
  | debug number => "dr" ++ decimalText number
  | segment seg => seg.name
  | gdtr => "gdtr"
  | idtr => "idtr"
  | tr => "tr"
  | ldtr => "ldtr"

/-- Position in the order of special registers: by family, then by number. -/
def rank : SpecialReg → Nat × Nat
  | control number => (0, number)
  | debug number => (1, number)
  | segment seg => (2, seg.index)
  | gdtr => (3, 0)
  | idtr => (4, 0)
  | tr => (5, 0)
  | ldtr => (6, 0)

theorem eq_of_rank_eq {a b : SpecialReg} (h : a.rank = b.rank) : a = b := by
  cases a <;> cases b <;> simp_all [rank]
  exact Segment.eq_of_index_eq h

end SpecialReg

end Uncompile
