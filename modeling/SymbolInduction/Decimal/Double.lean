-- Double-precision numbers as whole numbers: a sign, a significand and a
-- power of two, read off the bits.

namespace SymbolInduction.Decimal

/-- A double taken apart. A finite one is `significand * 2 ^ exponent`, with
its sign in front. -/
inductive Double where
  | notANumber
  | infinite (negative : Bool)
  | finite (negative : Bool) (significand : Nat) (exponent : Int)
  deriving DecidableEq, Inhabited

namespace Double

/-- The double with given bits. -/
def ofBits (bits : Nat) : Double :=
  let negative := decide (0x8000000000000000 ≤ bits)
  let exponent : Nat := bits / 0x10000000000000 % 0x800
  let fraction := bits % 0x10000000000000
  if exponent = 2047 then
    if fraction = 0 then infinite negative else notANumber
  else if exponent = 0 then finite negative fraction (-1074)
  else finite negative (0x10000000000000 + fraction) ((exponent : Int) - 1075)

/-- A floating-point number, taken apart. -/
def ofFloat (x : Float) : Double := ofBits x.toBits.toNat

/-- Below a full significand the doubles lie twice as close as above it; the
smallest exponent is the exception. -/
def isAtPowerOfTwo (significand : Nat) (exponent : Int) : Bool :=
  significand = 0x10000000000000 ∧ exponent ≠ -1074

example : ofBits 0x3ff0000000000000 = finite false (2 ^ 52) (-52) := by decide

end Double

end SymbolInduction.Decimal
