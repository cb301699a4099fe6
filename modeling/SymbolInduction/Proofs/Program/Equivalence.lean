-- Programs that are known to do the same. The test for it mixes three rules,
-- one for each kind of program; here all three are read as one: two programs
-- are equivalent where they have the same identity.
import SymbolInduction.Program.Basic
import SymbolInduction.Proofs.Term.Letters
import SymbolInduction.Proofs.Term.RoundTrip

namespace SymbolInduction

/-! ## Texts of values and texts of terms -/

namespace Value

theorem comma_mem_joined (m n : Int64) (ns : List Int64) :
    ',' ∈ (joined (m :: n :: ns)).toList := by
  simp [joined, String.toList_intercalate]

/-- A tuple with a number in it has a comma in its text. -/
theorem comma_mem_text {ns : List Int64} (h : ns ≠ []) : ',' ∈ (Value.tuple ns).text.toList := by
  match ns, h with
  | [n], _ => simp [text]
  | m :: n :: ns, _ =>
    have hcomma := comma_mem_joined m n ns
    simp [text, hcomma]

theorem text_literal (n : Int64) : (Term.literal n).text = (Value.int n).text := by
  simp [Term.text, Term.chars, Term.literal, Term.charsOn, Primitive.nameChars, text,
    Decimal.int64Text]

/-- Of all values, only numbers are written like terms. -/
theorem text_ne_term_text {v : Value} (h : ∀ n, v ≠ .int n) (t : Term) : t.text ≠ v.text := by
  cases v with
  | int n => exact absurd rfl (h n)
  | tuple ns =>
    by_cases hns : ns = []
    · subst hns
      intro htext
      have hread := Term.ofText_text t
      rw [htext] at hread
      have hempty : Term.ofText (Value.tuple []).text = .error .emptyList := rfl
      rw [hempty] at hread
      cases hread
    · exact Term.text_ne_of_mem (comma_mem_text hns) (by decide) t
  | empty => exact Term.text_ne_of_mem (c := 'E') (by decide) (by decide) t
  | missing => exact Term.text_ne_of_mem (c := 'M') (by decide) (by decide) t

theorem text_ne_missing (t : Term) : t.text ≠ Value.missing.text :=
  text_ne_term_text (by simp) t

theorem eq_missing_of_text {v : Value} (h : v.text = Value.missing.text) : v = .missing := by
  cases v with
  | int n =>
    rw [← text_literal] at h
    exact absurd h (text_ne_missing _)
  | tuple ns =>
    have hhead : (Value.tuple ns).text.toList.head? = some '(' := by
      match ns with
      | [n] => simp [text]
      | [] => simp [text]
      | m :: n :: ns => simp [text]
    rw [h] at hhead
    exact absurd hhead (by decide)
  | empty => exact absurd h (by decide)
  | missing => rfl

end Value

/-! ## The identity of a program -/

namespace Body

/-- What is compared of a program: its constant value, where it has one, and
its description otherwise. A supplied function without a constant value has no
identity. -/
def identity? (b : Body) : Option (Value ⊕ String) :=
  match b.constant?, b with
  | some v, _ => some (.inl v)
  | none, supplied .. => none
  | none, term _ | none, constant _ => some (.inr b.description)

theorem identity?_of_constant {b : Body} {v : Value} (h : b.constant? = some v) :
    b.identity? = some (.inl v) := by
  simp [identity?, h]

theorem identity?_eq_inl {b : Body} {v : Value} (h : b.identity? = some (.inl v)) :
    b.constant? = some v := by
  unfold identity? at h
  split at h
  · simp_all
  · cases h
  · cases h
  · cases h

/-- A program has no identity where it is a supplied function without a
constant value, and nowhere else. -/
theorem identity?_eq_none_iff {b : Body} :
    b.identity? = none ↔ (∃ n f, b = supplied n f) ∧ b.constant? = none := by
  unfold identity?
  split <;> simp_all

theorem arity_eq_zero_of_constant {b : Body} {v : Value} (h : b.constant? = some v) :
    b.arity = 0 := by
  unfold constant? at h
  split at h
  · assumption
  · cases h

/-- The constant value is what the program answers without arguments. -/
theorem answer_nil_of_constant {b : Body} {v : Value} (h : b.constant? = some v) :
    b.answer [] = v := by
  unfold constant? at h
  rw [if_pos (arity_eq_zero_of_constant h)] at h
  unfold answer
  split at h
  · cases h
  · cases h
  · rename_i hrun
    cases h
    rw [hrun]

theorem constant?_literal (n : Int64) : (term (.literal n)).constant? = some (.int n) := rfl

theorem constant?_constant {v : Value} (h : v ≠ .missing) : (constant v).constant? = some v := by
  unfold constant?
  cases v with
  | missing => exact absurd rfl h
  | _ => rfl

/-- A constant program without a constant value stands for a missing one. -/
theorem eq_missing_of_constant? {v : Value} (h : (constant v).constant? = none) : v = .missing := by
  by_cases hv : v = .missing
  · exact hv
  · rw [constant?_constant hv] at h
    cases h

/-- A number and a term with one text have one constant value. -/
theorem constant?_of_text {t : Term} {v : Value} (h : t.text = v.text) :
    ∃ n, v = .int n ∧ (term t).constant? = some (.int n) := by
  cases v with
  | int n =>
    have ht : t = .literal n := Term.text_injective (h.trans (Value.text_literal n).symm)
    exact ⟨n, rfl, by rw [ht, constant?_literal]⟩
  | _ => exact absurd h (Value.text_ne_term_text (by simp) t)

theorem identity?_eq_inr_iff {b : Body} {d : String} :
    b.identity? = some (.inr d) ↔
      b.constant? = none ∧ (∀ n f, b ≠ supplied n f) ∧ b.description = d := by
  unfold identity?
  split <;> simp_all

/-- The descriptions of a program with a constant value and of one without are
not the same. -/
theorem description_ne_of_constant {a b : Body} {v : Value} (ha : a.constant? = some v)
    (hb : b.constant? = none) (has : ∀ n f, a ≠ supplied n f) (hbs : ∀ n f, b ≠ supplied n f) :
    a.description ≠ b.description := by
  intro h
  cases a with
  | supplied n f => exact has n f rfl
  | term t =>
    cases b with
    | supplied n f => exact hbs n f rfl
    | term u =>
      obtain rfl := Term.text_injective h
      rw [ha] at hb
      cases hb
    | constant w =>
      obtain rfl := eq_missing_of_constant? hb
      exact Value.text_ne_missing t h
  | constant w =>
    cases b with
    | supplied n f => exact hbs n f rfl
    | term u =>
      obtain ⟨n, -, hu⟩ := constant?_of_text (t := u) (v := w) h.symm
      rw [hb] at hu
      cases hu
    | constant x =>
      obtain rfl := eq_missing_of_constant? hb
      obtain rfl := Value.eq_missing_of_text h
      rw [hb] at ha
      cases ha

/-- Programs that are known by one description are the same program. -/
theorem eq_of_description {a b : Body} {d : String} (ha : a.identity? = some (.inr d))
    (hb : b.identity? = some (.inr d)) : a = b := by
  obtain ⟨hac, has, had⟩ := identity?_eq_inr_iff.1 ha
  obtain ⟨hbc, hbs, hbd⟩ := identity?_eq_inr_iff.1 hb
  have h : a.description = b.description := had.trans hbd.symm
  cases a with
  | supplied n f => exact absurd rfl (has n f)
  | term t =>
    cases b with
    | supplied n f => exact absurd rfl (hbs n f)
    | term u => rw [Term.text_injective h]
    | constant w =>
      obtain rfl := eq_missing_of_constant? hbc
      exact absurd h (Value.text_ne_missing t)
  | constant w =>
    obtain rfl := eq_missing_of_constant? hac
    cases b with
    | supplied n f => exact absurd rfl (hbs n f)
    | term u => exact absurd h.symm (Value.text_ne_missing u)
    | constant x => rw [eq_missing_of_constant? hbc]

/-! ## The test -/

theorem equivalent_of_constants {a b : Body} {v w : Value} (ha : a.constant? = some v)
    (hb : b.constant? = some w) : a.equivalent b = (v == w) := by
  simp [equivalent, ha, hb, arity_eq_zero_of_constant ha, arity_eq_zero_of_constant hb]

theorem equivalent_of_no_constant {a b : Body} (h : a.constant? = none ∨ b.constant? = none)
    (has : ∀ n f, a ≠ supplied n f) (hbs : ∀ n f, b ≠ supplied n f) :
    a.equivalent b = (a.arity == b.arity && a.description == b.description) := by
  unfold equivalent
  split
  · simp_all
  · split
    · exact absurd rfl (has _ _)
    · exact absurd rfl (hbs _ _)
    · rfl

theorem equivalent_supplied {a b : Body} (h : a.constant? = none ∨ b.constant? = none)
    (hs : (∃ n f, a = supplied n f) ∨ ∃ n f, b = supplied n f) : a.equivalent b = false := by
  unfold equivalent
  split
  · simp_all
  · split
    · simp
    · simp
    · simp_all

/-- Two programs are equivalent where they have the same identity. -/
theorem equivalent_iff {a b : Body} :
    a.equivalent b = true ↔ ∃ i, a.identity? = some i ∧ b.identity? = some i := by
  constructor
  · intro h
    by_cases hnone : a.constant? = none ∨ b.constant? = none
    · have has : ∀ n f, a ≠ supplied n f := by
        rintro n f rfl
        rw [equivalent_supplied hnone (Or.inl ⟨n, f, rfl⟩)] at h
        cases h
      have hbs : ∀ n f, b ≠ supplied n f := by
        rintro n f rfl
        rw [equivalent_supplied hnone (Or.inr ⟨n, f, rfl⟩)] at h
        cases h
      rw [equivalent_of_no_constant hnone has hbs, Bool.and_eq_true] at h
      have hd : a.description = b.description := eq_of_beq h.2
      -- one description does not stand for a program with a constant value and one without
      have hac : a.constant? = none := by
        rcases hnone with hac | hbc
        · exact hac
        · exact Option.eq_none_iff_forall_ne_some.2 fun v hv =>
            description_ne_of_constant hv hbc has hbs hd
      have hbc : b.constant? = none := by
        exact Option.eq_none_iff_forall_ne_some.2 fun v hv =>
          description_ne_of_constant hv hac hbs has hd.symm
      exact ⟨.inr a.description, identity?_eq_inr_iff.2 ⟨hac, has, rfl⟩,
        identity?_eq_inr_iff.2 ⟨hbc, hbs, hd.symm⟩⟩
    · obtain ⟨hac, hbc⟩ := not_or.1 hnone
      obtain ⟨v, hv⟩ := Option.ne_none_iff_exists'.1 hac
      obtain ⟨w, hw⟩ := Option.ne_none_iff_exists'.1 hbc
      rw [equivalent_of_constants hv hw] at h
      obtain rfl : v = w := eq_of_beq h
      exact ⟨.inl v, identity?_of_constant hv, identity?_of_constant hw⟩
  · rintro ⟨i, ha, hb⟩
    cases i with
    | inl v =>
      rw [equivalent_of_constants (identity?_eq_inl ha) (identity?_eq_inl hb)]
      exact beq_self_eq_true v
    | inr d =>
      obtain rfl := eq_of_description ha hb
      obtain ⟨hac, has, -⟩ := identity?_eq_inr_iff.1 ha
      rw [equivalent_of_no_constant (Or.inl hac) has has]
      simp

theorem equivalent_symm {a b : Body} (h : a.equivalent b = true) : b.equivalent a = true := by
  obtain ⟨i, ha, hb⟩ := equivalent_iff.1 h
  exact equivalent_iff.2 ⟨i, hb, ha⟩

theorem equivalent_trans {a b c : Body} (hab : a.equivalent b = true)
    (hbc : b.equivalent c = true) : a.equivalent c = true := by
  obtain ⟨i, ha, hb⟩ := equivalent_iff.1 hab
  obtain ⟨j, hb', hc⟩ := equivalent_iff.1 hbc
  obtain rfl : i = j := Option.some.inj (hb.symm.trans hb')
  exact equivalent_iff.2 ⟨i, ha, hc⟩

/-- A program is like itself where it has an identity. -/
theorem equivalent_self_iff {a : Body} :
    a.equivalent a = true ↔ ¬((∃ n f, a = supplied n f) ∧ a.constant? = none) := by
  rw [equivalent_iff, ← identity?_eq_none_iff, ← ne_eq, Option.ne_none_iff_exists']
  simp

/-- Equivalent programs take as many arguments and give the same outputs. -/
theorem same_of_equivalent {a b : Body} (h : a.equivalent b = true) :
    a.arity = b.arity ∧ ∀ xs, a.output xs = b.output xs := by
  obtain ⟨i, ha, hb⟩ := equivalent_iff.1 h
  cases i with
  | inr d =>
    obtain rfl := eq_of_description ha hb
    exact ⟨rfl, fun _ => rfl⟩
  | inl v =>
    have hac := identity?_eq_inl ha
    have hbc := identity?_eq_inl hb
    refine ⟨(arity_eq_zero_of_constant hac).trans (arity_eq_zero_of_constant hbc).symm, ?_⟩
    intro xs
    unfold output accepts
    rw [arity_eq_zero_of_constant hac, arity_eq_zero_of_constant hbc]
    cases xs with
    | nil => rw [answer_nil_of_constant hac, answer_nil_of_constant hbc]
    | cons x xs => rfl

end Body

namespace Explanation

theorem equivalent_symm {e f : Explanation} (h : equivalent e f = true) : equivalent f e = true := by
  match e, f, h with
  | some _, some _, h => exact Body.equivalent_symm h

theorem equivalent_trans {e f g : Explanation} (hef : equivalent e f = true)
    (hfg : equivalent f g = true) : equivalent e g = true := by
  match e, f, g, hef, hfg with
  | some _, some _, some _, hef, hfg => exact Body.equivalent_trans hef hfg

end Explanation

namespace Program

/-- It is safe to merge programs that are equivalent. Equivalence goes both
ways and is passed on; every program is like itself, except a supplied function
without a constant value; and equivalent programs take as many arguments and
give the same output on every list of arguments. -/
theorem equivalence_is_safe_to_merge_on {α : Type} :
    (∀ p q : Program, p.equivalent q = true → q.equivalent p = true) ∧
    (∀ p q r : Program, p.equivalent q = true → q.equivalent r = true → p.equivalent r = true) ∧
    (∀ p : Program, p.equivalent p = true ↔
      ¬((∃ n f, p.body = .supplied n f) ∧ p.body.constant? = none)) ∧
    ∀ p q : Program, p.equivalent q = true →
      p.arity = q.arity ∧ ∀ xs, (p.evaluate (α := α) xs).value.1 = (q.evaluate (α := α) xs).value.1 := by
  refine ⟨fun p q => Body.equivalent_symm, fun p q r => Body.equivalent_trans,
    fun p => Body.equivalent_self_iff, fun p q h => ?_⟩
  obtain ⟨harity, hout⟩ := Body.same_of_equivalent h
  refine ⟨harity, fun xs => ?_⟩
  rw [evaluate_output, evaluate_output]
  exact hout xs

/-- The constant 4 and `(incr 3)` may be merged, in either order, and a third
program with them. -/
theorem four_is_safe_to_merge_with_incr_three :
    (constant (.int 4)).equivalent (ofTerm (.app (.prim .incr) (.literal 3))) = true ∧
    (ofTerm (.app (.prim .incr) (.literal 3))).equivalent (ofTerm (.literal 4)) = true ∧
    (ofTerm (.app (.prim .incr) (.literal 3))).equivalent (constant (.int 4)) = true ∧
    (constant (.int 4)).equivalent (ofTerm (.literal 4)) = true ∧
    ∀ xs, ((constant (.int 4)).evaluate (α := Unit) xs).value.1 =
      ((ofTerm (.app (.prim .incr) (.literal 3))).evaluate (α := Unit) xs).value.1 := by
  have h1 : (constant (.int 4)).equivalent (ofTerm (.app (.prim .incr) (.literal 3))) = true := rfl
  have h2 : (ofTerm (.app (.prim .incr) (.literal 3))).equivalent (ofTerm (.literal 4)) = true := rfl
  obtain ⟨symm, trans, -, same⟩ := equivalence_is_safe_to_merge_on (α := Unit)
  exact ⟨h1, h2, symm _ _ h1, trans _ _ _ h1 h2, (same _ _ h1).2⟩

end Program

end SymbolInduction
