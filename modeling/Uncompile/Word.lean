/-!
# Machine words

Registers hold 32-bit words. Constants that appear in expressions are kept as
integers, as they were written; only their class modulo `2 ^ 32` matters to the
machine, and `wrap32` picks the signed representative of that class. Masks are
combined as 64-bit patterns, which is the width constants are read with.
-/

namespace Uncompile

abbrev Word := BitVec 32

/-- The mask that keeps a whole word. -/
def mask32 : Int := 0xffffffff

/-- The signed representative of `value` modulo `2 ^ 32`. -/
def wrap32 (value : Int) : Int :=
  value.bmod 4294967296

/-- The word that a constant denotes. -/
def toWord (value : Int) : Word :=
  BitVec.ofInt 32 value

theorem toInt_toWord (value : Int) : (toWord value).toInt = wrap32 value := by
  simp [toWord, wrap32, BitVec.toInt_ofInt]

@[simp]
theorem toWord_wrap32 (value : Int) : toWord (wrap32 value) = toWord value := by
  rw [← toInt_toWord, toWord, toWord, BitVec.ofInt_toInt]

/-- Bitwise conjunction of two constants as 64-bit patterns. -/
def maskAnd (left right : Int) : Int :=
  (BitVec.ofInt 64 left &&& BitVec.ofInt 64 right).toInt

/-- Lower-case hexadecimal digits without leading zeros. -/
def hexDigits (value : Nat) : String :=
  String.ofList (Nat.toDigits 16 value)

/-- Decimal digits, with a sign for negative numbers. -/
def decimalText (value : Int) : String :=
  if value < 0 then "-" ++ String.ofList (Nat.toDigits 10 value.natAbs)
  else String.ofList (Nat.toDigits 10 value.natAbs)

/-- An address as it is written in messages. -/
def addressText (address : Nat) : String :=
  "0x" ++ hexDigits address

end Uncompile
