-- What the text of a term gives away. A promoted program, a sum, a difference or a negative
-- number anywhere in the term writes a sign into the text that nothing else writes. So a
-- guard that looks for these signs, and reads no term, decides what the term is made of.
import Mathlib.Data.List.Infix
import SymbolInduction.Learner.Guard
import SymbolInduction.Proofs.Decimal.RoundTrip
import SymbolInduction.Term.Printer

namespace SymbolInduction

/-! ## Numbers -/

namespace Decimal

theorem not_mem_natChars {c : Char} (hc : c.isDigit = false) (n : Nat) : c ∉ natChars n := by
  intro hmem
  rw [isDigit_of_mem_natChars hmem] at hc
  cases hc

theorem not_mem_int64Chars {c : Char} (hc : c.isDigit = false) (hminus : c ≠ '-') (n : Int64) :
    c ∉ int64Chars n := by
  intro hmem
  rcases mem_int64Chars hmem with hdigit | rfl
  · rw [hdigit] at hc
    cases hc
  · exact hminus rfl

/-- The numbers below zero, and no others, are written with a minus. -/
theorem minus_mem_int64Chars (n : Int64) : '-' ∈ int64Chars n ↔ n < 0 := by
  rw [Int64.lt_iff_toInt_lt]
  unfold int64Chars
  split
  · rename_i k hk
    rw [hk]
    exact iff_of_false (not_mem_natChars (by decide) k) (by simp)
  · rename_i k hk
    rw [hk]
    exact iff_of_true List.mem_cons_self (Int.negSucc_lt_zero k)

end Decimal

namespace Term

/-! ## The nodes of a term -/

/-- All terms of which a term is made, itself the first. -/
def nodes : Term → List Term
  | lam body => lam body :: body.nodes
  | app f x => app f x :: (f.nodes ++ x.nodes)
  | promoted body => promoted body :: body.nodes
  | t => [t]

/-- What a node writes into the text besides brackets, blanks, and the texts of the terms
of which it is made. -/
def sign : Term → List Char
  | var i => '$' :: Decimal.natChars i.toNat
  | lam _ => ['l', 'a', 'm', 'b', 'd', 'a']
  | app _ _ => []
  | prim p => p.nameChars
  | promoted _ => ['#']

/-- A character other than a bracket or a blank is written by a node of the term. -/
theorem mem_charsOn {c : Char} (hc : c ∉ ['(', ')', ' ']) (t : Term) (b : Bool) (rest : List Char) :
    c ∈ t.charsOn b rest ↔ (∃ s ∈ t.nodes, c ∈ s.sign) ∨ c ∈ rest := by
  obtain ⟨hopen, hclose, hblank⟩ : c ≠ '(' ∧ c ≠ ')' ∧ c ≠ ' ' := by simpa using hc
  induction t generalizing b rest with
  | var i => simp [charsOn, nodes, sign, or_assoc]
  | prim p => simp [charsOn, nodes, sign]
  | promoted body ih => simp [charsOn, nodes, sign, ih, or_assoc]
  | lam body ih => simp [charsOn, nodes, sign, ih, hopen, hclose, hblank, or_assoc]
  | app f x ihf ihx =>
    cases b <;>
      simp [charsOn, nodes, sign, ihf, ihx, hopen, hclose, hblank, or_assoc, or_and_right,
        exists_or]

theorem mem_text {c : Char} (hc : c ∉ ['(', ')', ' ']) (t : Term) :
    c ∈ t.text.toList ↔ ∃ s ∈ t.nodes, c ∈ s.sign := by
  rw [text, String.toList_ofList, chars, mem_charsOn hc]
  exact or_iff_left List.not_mem_nil

/-! ## What the markers stand for -/

theorem hash_mem_sign (s : Term) : '#' ∈ s.sign ↔ ∃ body, s = promoted body := by
  cases s with
  | promoted body => exact iff_of_true List.mem_cons_self ⟨body, rfl⟩
  | var i => simp [sign, Decimal.not_mem_natChars]
  | prim p =>
    cases p with
    | literal n => simp [sign, Primitive.nameChars, Decimal.not_mem_int64Chars]
    | _ => simp [sign, Primitive.nameChars]
  | _ => simp [sign]

theorem plus_mem_sign (s : Term) : '+' ∈ s.sign ↔ s = prim .add := by
  cases s with
  | var i => simp [sign, Decimal.not_mem_natChars]
  | prim p =>
    cases p with
    | literal n => simp [sign, Primitive.nameChars, Decimal.not_mem_int64Chars]
    | _ => simp [sign, Primitive.nameChars]
  | _ => simp [sign]

theorem minus_mem_sign (s : Term) : '-' ∈ s.sign ↔ s = prim .sub ∨ ∃ n < 0, s = literal n := by
  unfold literal
  cases s with
  | var i => simp [sign, Decimal.not_mem_natChars]
  | prim p =>
    cases p with
    | literal n => simp [sign, Primitive.nameChars, Decimal.minus_mem_int64Chars]
    | _ => simp [sign, Primitive.nameChars]
  | _ => simp [sign]

theorem usesPromoted_iff (t : Term) : t.usesPromoted = true ↔ ∃ body, promoted body ∈ t.nodes := by
  induction t with
  | promoted body => exact iff_of_true rfl ⟨body, List.mem_cons_self⟩
  | lam body ih => simp [usesPromoted, nodes, ih]
  | app f x ihf ihx => simp [usesPromoted, nodes, ihf, ihx, exists_or]
  | _ => simp [usesPromoted, nodes]

theorem hash_mem_text (t : Term) : '#' ∈ t.text.toList ↔ ∃ body, promoted body ∈ t.nodes := by
  rw [mem_text (by decide)]
  simp only [hash_mem_sign]
  exact ⟨fun ⟨s, hs, body, h⟩ => ⟨body, h ▸ hs⟩, fun ⟨body, h⟩ => ⟨_, h, body, rfl⟩⟩

theorem plus_mem_text (t : Term) : '+' ∈ t.text.toList ↔ prim .add ∈ t.nodes := by
  rw [mem_text (by decide)]
  simp only [plus_mem_sign, exists_eq_right]

theorem minus_mem_text (t : Term) :
    '-' ∈ t.text.toList ↔ prim .sub ∈ t.nodes ∨ ∃ n < 0, literal n ∈ t.nodes := by
  rw [mem_text (by decide)]
  simp only [minus_mem_sign]
  constructor
  · rintro ⟨s, hs, rfl | ⟨n, hn, rfl⟩⟩
    · exact Or.inl hs
    · exact Or.inr ⟨n, hn, hs⟩
  · rintro (h | ⟨n, hn, h⟩)
    · exact ⟨_, h, Or.inl rfl⟩
    · exact ⟨_, h, Or.inr ⟨n, hn, rfl⟩⟩

end Term

/-! ## What the guard decides -/

namespace PromotionGuard

/-- A guard whose markers are single characters looks for these characters. -/
theorem forbidding_iff (marks : List Char) (text : String) :
    forbidding (marks.map fun c => String.ofList [c]) text = true ↔
      ∀ c ∈ marks, c ∉ text.toList := by
  unfold forbidding
  simp only [Bool.not_eq_true', List.any_eq_false, List.forall_mem_map, String.toList_ofList,
    occurs_iff, List.singleton_infix_iff]

/-- The text of a program shows what makes a search slow. The guard that is used where none
is given permits a program exactly if nowhere in its term, and in no promoted program within
it, stands a promoted program, the sum, the difference or a number below zero. So it permits
no program that uses a promoted one. -/
theorem slow_programs_are_told_by_their_text (t : Term) :
    (forbidding slowMarkers t.text = true ↔
      (∀ body, .promoted body ∉ t.nodes) ∧ .prim .add ∉ t.nodes ∧ .prim .sub ∉ t.nodes ∧
        ∀ n < 0, .literal n ∉ t.nodes) ∧
    (forbidding slowMarkers t.text = true → t.usesPromoted = false) := by
  have hguard : forbidding slowMarkers t.text = true ↔
      (∀ body, .promoted body ∉ t.nodes) ∧ .prim .add ∉ t.nodes ∧ .prim .sub ∉ t.nodes ∧
        ∀ n < 0, .literal n ∉ t.nodes := by
    have hmarkers : slowMarkers = ['#', '+', '-'].map fun c => String.ofList [c] := by decide
    rw [hmarkers, forbidding_iff]
    simp only [List.forall_mem_cons, Term.hash_mem_text, Term.plus_mem_text,
      Term.minus_mem_text, not_exists, not_or, not_and, List.not_mem_nil, false_imp_iff,
      implies_true, and_true]
  refine ⟨hguard, fun hpermits => ?_⟩
  have hnone : ∀ body, .promoted body ∉ t.nodes := (hguard.mp hpermits).1
  rw [← Bool.not_eq_true, Term.usesPromoted_iff]
  rintro ⟨body, hbody⟩
  exact hnone body hbody

end PromotionGuard

end SymbolInduction
