-- What a score says. The marks of an explanation are those of its outputs,
-- whatever it remembers. One that reproduces all examples has likelihood one
-- where there are ten of them for each argument, and one whose likelihood does
-- not solve its symbol is less likely than that.
import SymbolInduction.Score
import SymbolInduction.Proofs.Scalar.Shares

namespace SymbolInduction

/-! ## Marks -/

namespace Explanation

/-- Two states of an explanation that differ in what they remember. -/
def Same (e e' : Explanation) : Prop := e.map Program.body = e'.map Program.body

variable {e e' : Explanation}

theorem Same.trans {e'' : Explanation} (h : Same e e') (h' : Same e' e'') : Same e e'' :=
  Eq.trans h h'

theorem Same.cases (h : Same e e') :
    (e = none ∧ e' = none) ∨ ∃ p q, e = some p ∧ e' = some q ∧ p.body = q.body := by
  cases e with
  | none =>
    cases e' with
    | none => exact Or.inl ⟨rfl, rfl⟩
    | some q => cases h
  | some p =>
    cases e' with
    | none => cases h
    | some q => exact Or.inr ⟨p, q, rfl, rfl, Option.some.inj h⟩

theorem Same.eq_none_iff (h : Same e e') : e = none ↔ e' = none := by
  rcases h.cases with ⟨rfl, rfl⟩ | ⟨p, q, rfl, rfl, -⟩ <;> simp

theorem Same.output_eq (h : Same e e') (xs : Inputs) : e.output xs = e'.output xs := by
  rcases h.cases with ⟨rfl, rfl⟩ | ⟨p, q, rfl, rfl, hbody⟩
  · rfl
  · exact congrArg (Body.output · xs) hbody

theorem Same.arity_eq (h : Same e e') : e.arity = e'.arity := by
  rcases h.cases with ⟨rfl, rfl⟩ | ⟨p, q, rfl, rfl, hbody⟩
  · rfl
  · exact congrArg Body.arity hbody

theorem Same.text_eq (h : Same e e') : e.text = e'.text := by
  rcases h.cases with ⟨rfl, rfl⟩ | ⟨p, q, rfl, rfl, hbody⟩
  · rfl
  · exact congrArg Body.text hbody

section

variable {α : Type}

theorem same_evaluate (e : Explanation) (xs : Inputs) :
    Same e (e.evaluate (α := α) xs).value.2 := by
  cases e with
  | none => rfl
  | some p => exact congrArg some (Program.evaluate_body p xs).symm

theorem same_check (e : Explanation) (examples : List Example) :
    Same e (e.check (α := α) examples).value.2 := by
  induction examples generalizing e with
  | nil => rfl
  | cons ex examples ih => exact (same_evaluate e ex.inputs).trans (ih _)

theorem Same.marks_eq (h : Same e e') (examples : List Example) :
    e.marks examples = e'.marks examples := by
  unfold marks
  exact List.map_congr_left fun ex _ => by rw [h.output_eq]

/-- What is checked are the outputs, not what is remembered. -/
theorem value_check (e : Explanation) (examples : List Example) :
    (e.check (α := α) examples).value.1 = e.marks examples := by
  induction examples generalizing e with
  | nil => rfl
  | cons ex examples ih =>
    have hsame := same_evaluate (α := α) e ex.inputs
    have hrest := ih (e.evaluate (α := α) ex.inputs).value.2
    rw [← hsame.marks_eq] at hrest
    unfold check
    simp only [Logged.value_bind, Logged.value_pure, evaluate_output, hrest]
    rfl

variable [Scalar α]

theorem same_score (e : Explanation) (examples : List Example) (penalty : Option α) :
    Same e (e.score examples penalty).value.2 := same_check e examples

theorem value_score (e : Explanation) (examples : List Example) (penalty : Option α) :
    (e.score examples penalty).value.1 = .ofMarks e.arity penalty (e.marks examples) := by
  unfold score
  simp only [Logged.value_bind, Logged.value_pure, value_check, ← (same_check e examples).arity_eq]

end

end Explanation

end SymbolInduction

namespace SymbolInduction.Score

open Doubles

/-! ## Scores -/

theorem likelihood_ofMarks {α : Type} [Scalar α] (arity : Nat) (penalty : α) {marks : List Bool}
    (h : marks ≠ []) : (ofMarks arity (some penalty) marks).likelihood =
      Scalar.ofNat (marks.count true) / Scalar.ofNat marks.length /
        discount penalty arity marks.length := by
  unfold ofMarks
  rw [if_neg h]

/-- An explanation that reproduces all examples has likelihood one, where there
are ten of them for each argument. -/
theorem likelihood_of_all {arity : Nat} {marks : List Bool} (hne : marks ≠ [])
    (hall : ∀ m ∈ marks, m = true) (hlen : marks.length < 2 ^ 64) (harity : 10 * arity < 2 ^ 53)
    (hle : 10 * arity ≤ marks.length) :
    (ofMarks arity (some (Scalar.ofNat 10 : Float)) marks).likelihood = Scalar.one := by
  have hpos : 0 < marks.length := List.length_pos_iff.2 hne
  have hcount : marks.count true = marks.length :=
    List.count_eq_length.2 fun m hm => (hall m hm).symm
  rw [likelihood_ofMarks arity _ hne, hcount]
  change Float.ofNat marks.length / Float.ofNat marks.length / discount (Float.ofNat 10) _ _ = _
  rw [count_div_self hpos hlen, discount_eq_one hpos hlen harity hle]
  exact one_div_one

/-- A likelihood that does not make a symbol solved is below one. -/
theorem likelihood_lt_one {arity : Nat} {penalty : Float} {marks : List Bool}
    (hlen : marks.length < 2 ^ 64)
    (h : Scalar.le (Scalar.ratio 19 20) (ofMarks arity (some penalty) marks).likelihood = false) :
    Scalar.lt (ofMarks arity (some penalty) marks).likelihood Scalar.one = true := by
  refine lt_one_of_not_le ?_ h
  by_cases hne : marks = []
  · subst hne
    change Float.isNaN (Float.ofNat 0) = false
    decide
  · have hshare : marks.count true ≤ marks.length := List.count_le_length
    rw [likelihood_ofMarks arity penalty hne]
    exact isNaN_quotient (share_finite hshare (List.length_pos_iff.2 hne) hlen) (max_one_spec _)

/-- An explanation that reproduces no example is not likely at all. -/
theorem not_le_likelihood {arity : Nat} {penalty : Float} {marks : List Bool}
    (hnone : ∀ m ∈ marks, m = false) (hlen : marks.length < 2 ^ 64) :
    Scalar.le (Scalar.ratio 19 20) (ofMarks arity (some penalty) marks).likelihood = false := by
  by_cases hne : marks = []
  · subst hne
    change Scalar.le (Scalar.ratio 19 20) (Float.ofNat 0) = false
    decide
  · have hcount : marks.count true = 0 := by
      rw [List.count_eq_zero]
      exact fun hmem => absurd (hnone true hmem) (by decide)
    obtain ⟨s, hs⟩ := zero_div_eq (max_one_spec (penalty * Scalar.ofNat arity / Scalar.ofNat marks.length))
    rw [likelihood_ofMarks arity penalty hne, hcount]
    change Scalar.le _ (Float.ofNat 0 / Float.ofNat _ / Scalar.max _ _) = false
    rw [zero_div_count (List.length_pos_iff.2 hne) hlen, div_eq, unpack_ofNat_zero, hs]
    cases s <;> decide

end SymbolInduction.Score
