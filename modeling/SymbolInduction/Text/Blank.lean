-- The characters that separate words: those with the Unicode property
-- White_Space.

namespace SymbolInduction.Text

/-- The ranges of code points with the property White_Space. -/
def blankRanges : List (Nat × Nat) :=
  [(0x0009, 0x000d), (0x0020, 0x0020), (0x0085, 0x0085), (0x00a0, 0x00a0), (0x1680, 0x1680),
   (0x2000, 0x200a), (0x2028, 0x2029), (0x202f, 0x202f), (0x205f, 0x205f), (0x3000, 0x3000)]

/-- A character that stands between words and belongs to none. -/
def isBlank (c : Char) : Bool :=
  blankRanges.any fun (first, last) => first ≤ c.toNat && c.toNat ≤ last

/-- The table holds twenty-five characters. -/
example : (blankRanges.map fun (first, last) => last + 1 - first).sum = 25 := rfl

end SymbolInduction.Text
