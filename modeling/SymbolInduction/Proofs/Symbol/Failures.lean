-- Failures as explanations. A program that fails on an example gives the value
-- that stands for no output, so it counts as right exactly where that value was
-- observed. A symbol of which only real outputs were observed is not likely at all
-- as long as it has no program, and takes the first one that is right somewhere.
import SymbolInduction.Proofs.Likelihood
import SymbolInduction.Proofs.Symbol.Ratings
import SymbolInduction.Proofs.Symbol.Tasks

namespace SymbolInduction

/-! ## Programs -/

/-- A term that takes arguments has a text. -/
theorem Term.chars_ne_nil {t : Term} (h : 0 < t.arity) : t.chars ≠ [] := by
  cases t with
  | prim p => cases p <;> first | exact List.cons_ne_nil _ _ | cases h
  | _ => exact List.cons_ne_nil _ _

theorem Body.description_ne_empty {b : Body} (h : 0 < b.arity) : b.description ≠ "" := by
  cases b with
  | term t =>
    intro hempty
    have hchars := congrArg String.toList hempty
    change (String.ofList t.chars).toList = _ at hchars
    rw [String.toList_ofList] at hchars
    exact Term.chars_ne_nil h hchars
  | supplied n f =>
    change "GT" ≠ ""
    decide
  | constant v => exact absurd h (Nat.lt_irrefl 0)

/-- No program that takes arguments has a shorter text than none at all. -/
theorem Program.text_none_le {p : Program} (h : 0 < p.arity) :
    (Explanation.text none).utf8ByteSize ≤ p.text.utf8ByteSize := by
  have hname : p.body.name = "fn" := by
    unfold Body.name Body.constant?
    rw [if_neg (by exact Nat.ne_of_gt h)]
  have hdescription : 0 < p.body.description.utf8ByteSize := by
    rw [Nat.pos_iff_ne_zero, Ne, String.utf8ByteSize_eq_zero_iff]
    exact Body.description_ne_empty h
  change (4 : Nat) ≤ (p.body.name ++ " " ++ p.body.description).utf8ByteSize
  rw [hname, String.utf8ByteSize_append]
  have : ("fn" ++ " " : String).utf8ByteSize = 3 := by decide
  omega

/-- A program that gives an output takes as many arguments as it was given. -/
theorem Program.length_of_output {p : Program} {xs : Inputs} (h : p.output xs ≠ .missing) :
    xs.length = p.arity := by
  unfold Program.output Body.output at h
  split at h
  · rename_i haccepts
    rw [Body.accepts, Bool.and_eq_true] at haccepts
    exact eq_of_beq haccepts.1
  · exact absurd rfl h

namespace Symbol

/-! ## What is taken -/

/-- What is right nowhere is not likely at all. -/
theorem likelihood_of_misses {e : Explanation} {examples : List Example} (penalty : Float)
    (h : ∀ x ∈ examples, e.output x.inputs ≠ x.output) :
    (Score.ofMarks e.arity (some penalty) (e.marks examples)).likelihood = Scalar.zero := by
  refine Score.likelihood_of_none fun m hm => ?_
  obtain ⟨x, hx, rfl⟩ := List.mem_map.1 hm
  exact beq_eq_false_iff_ne.2 (h x hx)

/-- A symbol that is not likely at all and has no program takes one that is right
somewhere, unless its arguments are too many for any likelihood. -/
theorem taken_iff_of_none {s : Symbol Float} {p : Program} (hlearnable : s.learnable = true)
    (hnone : s.explanation = none) (hzero : s.likelihood = Scalar.zero) (harity : 0 < p.arity)
    (hlen : s.examples.length < 2 ^ 64) (hright : ∃ e ∈ s.examples, p.output e.inputs = e.output) :
    (s.consider p).value.1 = true ↔
      (Score.discount s.settings.arityPenalty p.arity s.examples.length).isFinite = true := by
  obtain ⟨e, he, houtput⟩ := hright
  have hcount : (Explanation.marks (some p) s.examples).length = s.examples.length :=
    List.length_map _
  have hmark : true ∈ Explanation.marks (some p) s.examples :=
    List.mem_map.2 ⟨e, he, beq_iff_eq.2 houtput⟩
  rw [taken_iff hlearnable, offer_eq, ← hcount]
  unfold prefers
  rw [hzero, hnone]
  cases hfinite : (Score.discount s.settings.arityPenalty p.arity
      (Explanation.marks (some p) s.examples).length).isFinite with
  | true =>
    rw [Score.zero_lt_likelihood hmark (hcount ▸ hlen) hfinite]
    exact iff_of_true rfl rfl
  | false =>
    -- the texts decide, and no program that takes arguments has a short enough one
    have htext := p.text_none_le harity
    rw [Score.likelihood_of_infinite (List.ne_nil_of_mem hmark) (hcount ▸ hlen) hfinite]
    rw [Doubles.zero_lt_zero, Bool.false_or, Bool.and_eq_true, decide_eq_true_iff]
    exact iff_of_false (fun h => Nat.not_lt.2 htext h.2) Bool.false_ne_true

/-! ## Failures -/

/-- Without a program there is no output for any arguments. -/
theorem output_none {xs : Inputs} (h : 0 < xs.length) : Explanation.output none xs = .missing := by
  cases xs with
  | nil => exact absurd h (Nat.lt_irrefl 0)
  | cons x xs => rfl

/-- An example on which the program fails counts as right exactly where a failure
was observed. Where none was, a symbol that takes arguments is not likely at all
without a program, and takes the first one that is right somewhere, if the discount
for its arguments is finite. -/
theorem failure_is_right_where_observed (idx arity : Nat) (settings : Settings Float)
    (changes : List Change) :
    let s := (fresh idx arity settings).after changes
    (∀ e ∈ s.examples, s.explanation.output e.inputs = .missing →
        (e ∈ s.rightExamples ↔ e.output = .missing)) ∧
      (0 < arity → s.explanation = none → (∀ e ∈ s.examples, e.output ≠ .missing) →
        s.likelihood = Scalar.zero ∧
          (s.examples.length < 2 ^ 64 → ∀ p : Program,
            (∃ e ∈ s.examples, p.output e.inputs = e.output) →
              ((s.consider p).value.1 = true ↔
                (Score.discount settings.arityPenalty arity s.examples.length).isFinite = true))) := by
  intro s
  have h : s.Learned arity settings := learned_after idx arity settings changes
  refine ⟨fun e he hfails => ?_, fun harity hnone hreal => ?_⟩
  · rw [mem_rightExamples h.scored, hfails]
    exact ⟨fun hright => hright.2.symm, fun hmissing => ⟨he, hmissing.symm⟩⟩
  · have hzero : s.likelihood = Scalar.zero := by
      rw [h.scored.rated]
      refine likelihood_of_misses _ fun e he => ?_
      rw [hnone, output_none (h.inputs e he ▸ harity)]
      exact (hreal e he).symm
    refine ⟨hzero, fun hlen p hright => ?_⟩
    obtain ⟨e, he, houtput⟩ := hright
    have hp : p.arity = arity :=
      (Program.length_of_output (houtput ▸ hreal e he)).symm.trans (h.inputs e he)
    have htaken := taken_iff_of_none h.learnable hnone hzero (hp ▸ harity) hlen ⟨e, he, houtput⟩
    rwa [h.settings, hp] at htaken

theorem the_identity_is_taken :
    let s := (fresh 0 1 Settings.default).after [.observe [⟨[.int 1], .int 1⟩]]
    s.explanation = none ∧ (∀ e ∈ s.examples, e.output ≠ .missing) ∧
      s.likelihood = (Scalar.zero : Float) ∧
      (s.consider (.ofTerm (.lam (.var 0)))).value.1 = true := by
  have hstate := failure_is_right_where_observed 0 1 Settings.default
    [.observe [⟨[.int 1], .int 1⟩]]
  dsimp only at hstate ⊢
  generalize hs : (fresh 0 1 (Settings.default : Settings Float)).after
    [.observe [⟨[.int 1], .int 1⟩]] = s at hstate ⊢
  have hnone : s.explanation = none := by
    rw [← hs]
    decide
  have hexamples : s.examples = [⟨[.int 1], .int 1⟩] := by
    rw [← hs]
    decide
  rw [hexamples] at hstate ⊢
  have hreal : ∀ e ∈ [(⟨[.int 1], .int 1⟩ : Example)], e.output ≠ .missing := by decide
  obtain ⟨hzero, htaken⟩ := hstate.2 Nat.one_pos hnone hreal
  have hright := htaken (by decide) (.ofTerm (.lam (.var 0)))
    ⟨_, List.mem_singleton.2 rfl, by decide⟩
  exact ⟨hnone, hreal, hzero, hright.2 (by decide)⟩

set_option maxRecDepth 1000 in
/-- A failure that was observed makes a symbol likely that has no program, and keeps
out the program that gives the other output. -/
theorem an_observed_failure_is_right :
    let s := (fresh 0 1 (Settings.default : Settings Float)).after
      [.observe [⟨[.int 5], .missing⟩, ⟨[.int 1], .int 1⟩]]
    let p := Program.ofTerm (.lam (.var 0))
    s.explanation = none ∧ s.rightExamples = [⟨[.int 5], .missing⟩] ∧
      Scalar.eq s.likelihood Scalar.zero = false ∧
      ⟨[.int 1], .int 1⟩ ∈ s.examples ∧ p.output [.int 1] = .int 1 ∧
      (s.consider p).value.1 = false := by
  decide

end Symbol

end SymbolInduction
