-- Decimal texts read back: what is printed for a word is read as that word,
-- for every signed and every unsigned word.
import SymbolInduction.Decimal.Word

namespace SymbolInduction.Decimal

/-! ## Digits -/

theorem isDigit_of_mem_natChars {n : Nat} {c : Char} (h : c ∈ natChars n) : c.isDigit = true :=
  Nat.isDigit_of_mem_toDigits (by decide) (by decide) h

theorem natChars_ne_nil (n : Nat) : natChars n ≠ [] := Nat.toDigits_ne_nil

theorem natOf?_natChars (n : Nat) : natOf? (natChars n) = some n := by
  have hdigits : (natChars n).all Char.isDigit = true :=
    List.all_eq_true.2 fun c hc => isDigit_of_mem_natChars hc
  unfold natOf?
  rw [if_pos ⟨natChars_ne_nil n, hdigits⟩]
  exact congrArg some Nat.ofDigitChars_ten_toDigits

/-- A text of digits starts with no sign. -/
theorem int64Of?_of_digits {text : List Char} (h : ∀ c ∈ text, c.isDigit = true) :
    int64Of? text = (natOf? text).bind fun n => int64OfInt? n := by
  unfold int64Of?
  split
  · exact absurd (h '-' (by simp)) (by decide)
  · exact absurd (h '+' (by simp)) (by decide)
  · rfl

theorem int64Of?_of_minus (digits : List Char) :
    int64Of? ('-' :: digits) = (natOf? digits).bind fun n => int64OfInt? (-n) := rfl

theorem uint64Of?_of_digits {text : List Char} (h : ∀ c ∈ text, c.isDigit = true) :
    uint64Of? text = (natOf? text).bind uint64OfNat? := by
  unfold uint64Of?
  split
  · exact absurd (h '+' (by simp)) (by decide)
  · rfl

/-! ## Words -/

theorem int64OfInt?_toInt (n : Int64) : int64OfInt? n.toInt = some n := by
  unfold int64OfInt?
  rw [if_pos ⟨Int64.minValue_le_toInt n, Int64.toInt_le n⟩, Int64.ofInt_toInt]

/-- The digits of a signed word read back as the word. -/
theorem int64Of?_int64Chars (n : Int64) : int64Of? (int64Chars n) = some n := by
  have hn := int64OfInt?_toInt n
  unfold int64Chars
  split
  · rename_i k hk
    rw [hk] at hn
    rw [int64Of?_of_digits fun c hc => isDigit_of_mem_natChars hc, natOf?_natChars,
      Option.bind_some, ← hn]
    rfl
  · rename_i k hk
    rw [hk] at hn
    rw [int64Of?_of_minus, natOf?_natChars, Option.bind_some, ← hn]
    rfl

/-- The digits of an unsigned word read back as the word. -/
theorem uint64Of?_natChars (i : UInt64) : uint64Of? (natChars i.toNat) = some i := by
  rw [uint64Of?_of_digits fun c hc => isDigit_of_mem_natChars hc, natOf?_natChars, Option.bind_some]
  unfold uint64OfNat?
  rw [if_pos i.toNat_lt, UInt64.ofNat_toNat]

/-- The first letter of a signed word is a digit or a minus sign, and so are
all others. -/
theorem mem_int64Chars {n : Int64} {c : Char} (h : c ∈ int64Chars n) : c.isDigit = true ∨ c = '-' := by
  unfold int64Chars at h
  split at h
  · exact Or.inl (isDigit_of_mem_natChars h)
  · rcases List.mem_cons.1 h with h | h
    · exact Or.inr h
    · exact Or.inl (isDigit_of_mem_natChars h)

end SymbolInduction.Decimal
