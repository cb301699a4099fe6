-- What programs remember. An evaluation remembers the arguments that it was given, and
-- forgets none from before; and a program that is given arguments it remembers stays as
-- it is. So a program that was checked on some examples can be asked for their outputs
-- again without any trace; and however often it is asked, its answers are those of a
-- program that was never asked before.
import Mathlib.Data.Finset.Card
import SymbolInduction.Score

namespace SymbolInduction

variable {α : Type}

theorem Body.accepts_iff (b : Body) (xs : Inputs) :
    b.accepts xs = true ↔ xs.length = b.arity ∧ .missing ∉ xs := by
  unfold accepts
  simp

/-! ## Programs -/

namespace Program

/-- Whether a program remembers its output on some arguments. Those that it does not
accept need not be remembered. -/
def Remembers (p : Program) (xs : Inputs) : Prop :=
  p.body.accepts xs = true → ∃ v, p.memo.lookup xs = some v

variable {p : Program} {xs ys : Inputs}

theorem remembers_remember (h : ys = xs ∨ p.Remembers ys) : (p.remember xs).Remembers ys := by
  intro haccepts
  unfold remember
  rw [List.lookup_cons]
  split
  · exact ⟨_, rfl⟩
  · rename_i hne
    rcases h with rfl | h
    · simp at hne
    · exact h haccepts

theorem remembers_evaluate (h : ys = xs ∨ p.Remembers ys) :
    (p.evaluate (α := α) xs).value.2.Remembers ys := by
  unfold evaluate
  split
  · split
    · rename_i v hv
      rcases h with rfl | h
      · exact fun _ => ⟨v, hv⟩
      · exact h
    · split <;> exact remembers_remember h
  · rename_i hrefused
    rcases h with rfl | h
    · exact fun haccepts => absurd haccepts hrefused
    · exact h

/-- A program that is asked for what it remembers stays as it is. -/
theorem evaluate_of_remembers (h : p.Remembers xs) : (p.evaluate (α := α) xs).value.2 = p := by
  unfold evaluate
  split
  · rename_i haccepts
    obtain ⟨v, hv⟩ := h haccepts
    rw [hv]
    rfl
  · rfl

/-! ### Many calls -/

/-- The same program, built anew: it remembers nothing. -/
def anew (p : Program) : Program := { body := p.body }

/-- The outputs on some lists of arguments, one after another, and the program with what it
remembers after all of them. -/
def evaluateEach : Program → List Inputs → Logged α (List Value × Program)
  | p, [] => pure ([], p)
  | p, xs :: calls => do
    let (v, p) ← p.evaluate xs
    let (vs, p) ← p.evaluateEach calls
    pure (v :: vs, p)

/-- The lists of arguments on which the program remembers its output. -/
def remembered (p : Program) : List Inputs := p.memo.map (·.1)

theorem value_evaluateEach_cons (p : Program) (xs : Inputs) (calls : List Inputs) :
    (p.evaluateEach (α := α) (xs :: calls)).value =
      ((p.evaluate (α := α) xs).value.1 ::
          ((p.evaluate (α := α) xs).value.2.evaluateEach (α := α) calls).value.1,
        ((p.evaluate (α := α) xs).value.2.evaluateEach (α := α) calls).value.2) := rfl

/-- A call adds its arguments to those that are remembered, if the program accepts them. -/
theorem remembered_evaluate (p : Program) (xs : Inputs) :
    (p.evaluate (α := α) xs).value.2.remembered =
      if p.body.accepts xs then p.remembered.insert xs else p.remembered := by
  have hlookup : (∃ v, p.memo.lookup xs = some v) ↔ xs ∈ p.remembered := by
    rw [← Option.isSome_iff_exists, List.lookup_isSome_iff, remembered, List.mem_map]
    exact exists_congr fun e => and_congr_right fun _ => beq_iff_eq.trans eq_comm
  unfold evaluate
  split
  · cases hv : p.memo.lookup xs with
    | some v => exact (List.insert_of_mem (hlookup.1 ⟨v, hv⟩)).symm
    | none =>
      have hnew : xs ∉ p.remembered := by simp [← hlookup, hv]
      rw [List.insert_of_not_mem hnew]
      cases p.body.run xs <;> rfl
  · rfl

/-- Many calls give what the program gives whatever it remembers. -/
theorem outputs_evaluateEach (p : Program) (calls : List Inputs) :
    (p.evaluateEach (α := α) calls).value.1 = calls.map p.output := by
  induction calls generalizing p with
  | nil => rfl
  | cons xs calls ih =>
    rw [value_evaluateEach_cons, ih, List.map_cons, evaluate_output]
    unfold output
    rw [evaluate_body]

/-- Nothing is remembered twice. -/
theorem nodup_remembered {p : Program} (h : p.remembered.Nodup) (calls : List Inputs) :
    (p.evaluateEach (α := α) calls).value.2.remembered.Nodup := by
  induction calls generalizing p with
  | nil => exact h
  | cons xs calls ih =>
    rw [value_evaluateEach_cons]
    refine ih ?_
    rw [remembered_evaluate]
    split
    · exact h.insert
    · exact h

/-- What is remembered after many calls was remembered before, or is what one of them was
asked for and accepted. -/
theorem mem_remembered {p : Program} (calls : List Inputs) (ys : Inputs) :
    ys ∈ (p.evaluateEach (α := α) calls).value.2.remembered ↔
      ys ∈ p.remembered ∨ ys ∈ calls ∧ p.body.accepts ys = true := by
  induction calls generalizing p with
  | nil => simp [evaluateEach]
  | cons xs calls ih =>
    rw [value_evaluateEach_cons, ih, remembered_evaluate, evaluate_body, List.mem_cons]
    by_cases haccepts : p.body.accepts xs = true
    · rw [if_pos haccepts, List.mem_insert_iff]
      constructor
      · rintro ((rfl | h) | ⟨h, ha⟩)
        · exact Or.inr ⟨Or.inl rfl, haccepts⟩
        · exact Or.inl h
        · exact Or.inr ⟨Or.inr h, ha⟩
      · rintro (h | ⟨rfl | h, ha⟩)
        · exact Or.inl (Or.inr h)
        · exact Or.inl (Or.inl rfl)
        · exact Or.inr ⟨h, ha⟩
    · rw [if_neg haccepts]
      refine or_congr_right (and_congr_left fun ha => ?_)
      constructor
      · exact Or.inr
      · rintro (rfl | h)
        · exact absurd ha haccepts
        · exact h

/-- The memory is invisible. Whatever a program remembers, and however often it is asked, it
answers each call as it would have done if it were built anew, failures included; and one
that was built anew remembers afterwards as many lists of arguments as it was asked for
that have its arity and nothing missing, each of them counted once. -/
theorem memory_is_invisible (p : Program) (calls : List Inputs) :
    (p.evaluateEach (α := α) calls).value.1 =
        calls.map (fun xs => (p.anew.evaluate (α := α) xs).value.1) ∧
      (p.anew.evaluateEach (α := α) calls).value.2.memo.length =
        (calls.filter fun xs => xs.length = p.arity ∧ .missing ∉ xs).toFinset.card := by
  constructor
  · rw [outputs_evaluateEach]
    refine List.map_congr_left fun xs _ => ?_
    rw [evaluate_output]
    rfl
  · have hnodup := nodup_remembered (α := α) (p := p.anew) List.nodup_nil calls
    have hlength : (p.anew.evaluateEach (α := α) calls).value.2.memo.length =
        (p.anew.evaluateEach (α := α) calls).value.2.remembered.length := (List.length_map _).symm
    rw [hlength, ← List.toFinset_card_of_nodup hnodup]
    congr 1
    ext ys
    rw [List.mem_toFinset, List.mem_toFinset, List.mem_filter, decide_eq_true_eq, mem_remembered,
      Body.accepts_iff]
    exact or_iff_right List.not_mem_nil

end Program

/-! ## Explanations -/

namespace Explanation

/-- Whether the program of an explanation, where there is one, remembers its output. -/
def Remembers (e : Explanation) (xs : Inputs) : Prop := ∀ p ∈ e, p.Remembers xs

variable {e : Explanation} {xs ys : Inputs}

theorem remembers_evaluate (h : ys = xs ∨ e.Remembers ys) :
    (e.evaluate (α := α) xs).value.2.Remembers ys := by
  cases e with
  | none => exact nofun
  | some p =>
    rintro q ⟨⟩
    exact Program.remembers_evaluate (h.imp_right fun h => h p rfl)

/-- What was checked on some examples remembers them all. -/
theorem remembers_check {examples : List Example}
    (h : (∃ ex ∈ examples, ex.inputs = xs) ∨ e.Remembers xs) :
    (e.check (α := α) examples).value.2.Remembers xs := by
  induction examples generalizing e with
  | nil => exact h.resolve_left (by simp)
  | cons ex examples ih =>
    refine ih ?_
    rcases h with ⟨ex', hmem, rfl⟩ | h
    · rcases List.mem_cons.1 hmem with rfl | hmem
      · exact Or.inr (remembers_evaluate (Or.inl rfl))
      · exact Or.inl ⟨ex', hmem, rfl⟩
    · exact Or.inr (remembers_evaluate (Or.inr h))

theorem remembers_score [Scalar α] {examples : List Example} {ex : Example} (hex : ex ∈ examples)
    (penalty : Option α) : (e.score examples penalty).value.2.Remembers ex.inputs :=
  remembers_check (Or.inl ⟨ex, hex, rfl⟩)

end Explanation

end SymbolInduction
