-- The characters of a printed term: digits, small letters and a few signs.
-- Texts with any other character are the texts of no term.
import SymbolInduction.Proofs.Decimal.RoundTrip
import SymbolInduction.Term.Printer

namespace SymbolInduction.Term

/-- A character that may stand in the text of a term. -/
def isLetter (c : Char) : Bool :=
  c.isDigit || c.isLower || ['$', '#', '(', ')', ' ', '+', '-', '*', '?'].contains c

theorem isLetter_of_isDigit {c : Char} (h : c.isDigit = true) : isLetter c = true := by
  simp [isLetter, h]

theorem nameChars_letters (p : Primitive) : ∀ c ∈ p.nameChars, isLetter c = true := by
  cases p with
  | literal n =>
    intro c hc
    rcases Decimal.mem_int64Chars hc with hc | rfl
    · exact isLetter_of_isDigit hc
    · decide
  | _ => exact List.all_eq_true.1 (by decide)

/-- A printed term before letters is letters. -/
theorem charsOn_letters (t : Term) (b : Bool) (rest : List Char) (h : ∀ c ∈ rest, isLetter c = true) :
    ∀ c ∈ t.charsOn b rest, isLetter c = true := by
  induction t generalizing b rest with
  | var i =>
    have hdigits : ∀ c ∈ Decimal.natChars i.toNat, isLetter c = true := fun _ hc =>
      isLetter_of_isDigit (Decimal.isDigit_of_mem_natChars hc)
    exact List.forall_mem_cons.2 ⟨by decide, List.forall_mem_append.2 ⟨hdigits, h⟩⟩
  | prim p => exact List.forall_mem_append.2 ⟨nameChars_letters p, h⟩
  | promoted body ih => exact List.forall_mem_cons.2 ⟨by decide, ih false rest h⟩
  | lam body ih =>
    have hclose : ∀ c ∈ ')' :: rest, isLetter c = true := List.forall_mem_cons.2 ⟨by decide, h⟩
    have hopen : ∀ c ∈ ['(', 'l', 'a', 'm', 'b', 'd', 'a', ' '], isLetter c = true :=
      List.all_eq_true.1 (by decide)
    exact List.forall_mem_append.2 ⟨hopen, ih false _ hclose⟩
  | app f x ihf ihx =>
    have hclose : ∀ c ∈ ')' :: rest, isLetter c = true := List.forall_mem_cons.2 ⟨by decide, h⟩
    cases b with
    | true => exact ihf true _ (List.forall_mem_cons.2 ⟨by decide, ihx false rest h⟩)
    | false =>
      have hargs : ∀ c ∈ ' ' :: x.charsOn false (')' :: rest), isLetter c = true :=
        List.forall_mem_cons.2 ⟨by decide, ihx false _ hclose⟩
      exact List.forall_mem_cons.2 ⟨by decide, ihf true _ hargs⟩

/-- A text of a term holds letters only. -/
theorem isLetter_of_mem_text {t : Term} {c : Char} (h : c ∈ t.text.toList) : isLetter c = true := by
  rw [text, String.toList_ofList] at h
  exact charsOn_letters t false [] (by simp) c h

/-- A text with a character that is no letter is the text of no term. -/
theorem text_ne_of_mem {s : String} {c : Char} (hc : c ∈ s.toList) (h : isLetter c = false)
    (t : Term) : t.text ≠ s := by
  rintro rfl
  rw [isLetter_of_mem_text hc] at h
  cases h

end SymbolInduction.Term
