-- Candidates that are offered to a symbol one after another. Each of them meets the
-- program that the symbol has by then, and takes its place only if it is better. As
-- all are scored on the same examples, explanations stand in one line, and what the
-- symbol ends with is the first of all that no other one is better than.
import SymbolInduction.Proofs.Likelihood
import SymbolInduction.Proofs.Symbol.Ratings

namespace SymbolInduction.Symbol

/-! ## Better explanations -/

section

variable {α : Type} [Scalar α]

/-- The likelihood that the examples of a symbol give an explanation. -/
def likelihoodOf (s : Symbol α) (e : Explanation) : α :=
  (e.score s.examples (some s.settings.arityPenalty)).value.1.likelihood

/-- One explanation is better than another: it is more likely, or as likely and has a
shorter text. -/
def Better (s : Symbol α) (e e' : Explanation) : Prop :=
  Scalar.lt (s.likelihoodOf e') (s.likelihoodOf e) = true ∨
    Scalar.eq (s.likelihoodOf e) (s.likelihoodOf e') = true ∧
      e.text.utf8ByteSize < e'.text.utf8ByteSize

/-- The first of several explanations that none of them is better than: all that come
before it are worse. -/
def FirstBest (s : Symbol α) (offered : List Explanation) (best : Explanation) : Prop :=
  ∃ before after, offered = before ++ best :: after ∧
    (∀ e ∈ before, s.Better best e) ∧ ∀ e ∈ offered, ¬s.Better e best

/-- The symbol once several candidates were offered to it, first one first. -/
def considerAll (s : Symbol α) (ps : List Program) : Symbol α := s.after (ps.map .consider)

theorem likelihoodOf_congr {s s' : Symbol α} (hexamples : s'.examples = s.examples)
    (hsettings : s'.settings = s.settings) : s'.likelihoodOf = s.likelihoodOf := by
  unfold likelihoodOf
  rw [hexamples, hsettings]

/-- What an explanation remembers makes it neither better nor worse. -/
theorem better_congr_right {s : Symbol α} {e d d' : Explanation} (h : Explanation.Same d d') :
    s.Better e d ↔ s.Better e d' := by
  unfold Better likelihoodOf
  rw [score_eq_of_same h, h.text_eq]

theorem Scored.likelihood_eq {s : Symbol α} (h : s.Scored) :
    s.likelihood = s.likelihoodOf s.explanation := (congrArg Score.likelihood h).symm

/-- A symbol that is learned takes a candidate exactly if that is better than its
program. -/
theorem taken_iff_better {s : Symbol α} (hlearnable : s.learnable = true) (hscored : s.Scored)
    (p : Program) : (s.consider p).value.1 = true ↔ s.Better (some p) s.explanation := by
  rw [taken_iff hlearnable]
  unfold prefers Better
  rw [Bool.or_eq_true, Bool.and_eq_true, decide_eq_true_iff, hscored.likelihood_eq]
  rfl

end

/-! ## The line in which explanations stand -/

variable {s : Symbol Float}

/-- Where an explanation stands: at the place of its likelihood, and there the higher,
the shorter its text is. -/
def placeOf (s : Symbol Float) (e : Explanation) : ℤ ×ₗ ℕᵒᵈ :=
  toLex (placeOfDouble (s.likelihoodOf e), OrderDual.toDual e.text.utf8ByteSize)

theorem fromZero_likelihoodOf (hlen : s.examples.length < 2 ^ 64) (e : Explanation) :
    Doubles.FromZero (s.likelihoodOf e) := by
  unfold likelihoodOf
  rw [Explanation.value_score]
  refine Score.fromZero_likelihood _ _ ?_
  unfold Explanation.marks
  rwa [List.length_map]

theorem better_iff (hlen : s.examples.length < 2 ^ 64) (e e' : Explanation) :
    s.Better e e' ↔ s.placeOf e' < s.placeOf e := by
  have he := fromZero_likelihoodOf hlen e
  have he' := fromZero_likelihoodOf hlen e'
  unfold Better placeOf
  rw [Prod.Lex.toLex_lt_toLex, Doubles.lt_iff_place he' he, Doubles.eq_iff he he',
    OrderDual.toDual_lt_toDual]
  -- only equal likelihoods stand at one place
  refine or_congr_right (and_congr_left fun _ => ⟨fun h => by rw [h], fun h => ?_⟩)
  exact Doubles.eq_of_place h.symm

/-- Explanations that stand level are equally likely, and their texts have one size. -/
theorem eq_of_placeOf {e e' : Explanation} (h : s.placeOf e = s.placeOf e') :
    s.likelihoodOf e = s.likelihoodOf e' ∧ e.text.utf8ByteSize = e'.text.utf8ByteSize := by
  obtain ⟨hplace, hsize⟩ := Prod.mk.inj (toLex_inj.1 h)
  exact ⟨Doubles.eq_of_place hplace, OrderDual.toDual_inj.1 hsize⟩

/-! ## The first best -/

section

variable {offered : List Explanation} {best e : Explanation}

theorem FirstBest.mem (h : s.FirstBest offered best) : best ∈ offered := by
  obtain ⟨before, after, rfl, -, -⟩ := h
  exact List.mem_append_right _ List.mem_cons_self

theorem firstBest_singleton (hlen : s.examples.length < 2 ^ 64) (e : Explanation) :
    s.FirstBest [e] e := by
  refine ⟨[], [], rfl, nofun, fun d hd => ?_⟩
  rw [List.mem_singleton.1 hd, better_iff hlen]
  exact lt_irrefl _

/-- What is better than the best is better than all. -/
theorem FirstBest.better_iff_all (hlen : s.examples.length < 2 ^ 64)
    (h : s.FirstBest offered best) : s.Better e best ↔ ∀ d ∈ offered, s.Better e d := by
  refine ⟨fun hbetter d hd => ?_, fun hall => hall best h.mem⟩
  -- no explanation stands above the best, so all stand below what is better
  obtain ⟨-, -, -, -, hmost⟩ := h
  have hd := hmost d hd
  rw [better_iff hlen] at hbetter hd ⊢
  exact (not_lt.1 hd).trans_lt hbetter

theorem FirstBest.concat_of_better (hlen : s.examples.length < 2 ^ 64)
    (h : s.FirstBest offered best) (hbetter : s.Better e best) :
    s.FirstBest (offered ++ [e]) e := by
  have hall := (h.better_iff_all hlen).1 hbetter
  refine ⟨offered, [], rfl, hall, fun d hd => ?_⟩
  rw [better_iff hlen]
  rcases List.mem_append.1 hd with hd | hd
  · exact ((better_iff hlen _ _).1 (hall d hd)).not_gt
  · rw [List.mem_singleton.1 hd]
    exact lt_irrefl _

theorem FirstBest.concat_of_not (h : s.FirstBest offered best) (hworse : ¬s.Better e best) :
    s.FirstBest (offered ++ [e]) best := by
  obtain ⟨before, after, rfl, hbefore, hmost⟩ := h
  refine ⟨before, after ++ [e], by simp, hbefore, fun d hd => ?_⟩
  rcases List.mem_append.1 hd with hd | hd
  · exact hmost d hd
  · exact List.mem_singleton.1 hd ▸ hworse

/-- In whatever order explanations are offered, the best of them stand level. -/
theorem FirstBest.placeOf_eq (hlen : s.examples.length < 2 ^ 64) {offered' : List Explanation}
    {best' : Explanation} (h : s.FirstBest offered best) (h' : s.FirstBest offered' best')
    (hperm : offered.Perm offered') : s.placeOf best = s.placeOf best' := by
  have hmem := h.mem
  have hmem' := h'.mem
  obtain ⟨-, -, -, -, hmost⟩ := h
  obtain ⟨-, -, -, -, hmost'⟩ := h'
  have hle := hmost' best (hperm.subset hmem)
  have hge := hmost best' (hperm.symm.subset hmem')
  rw [better_iff hlen, not_lt] at hle hge
  exact le_antisymm hle hge

end

/-! ## Offers -/

/-- A symbol to which explanations were offered: it has the examples that it had, and
the first best of the explanations. -/
structure Offered (s : Symbol Float) (offered : List Explanation) (now : Symbol Float) : Prop where
  learnable : now.learnable = true
  scored : now.Scored
  examples : now.examples = s.examples
  settings : now.settings = s.settings
  best : ∃ best, s.FirstBest offered best ∧ Explanation.Same best now.explanation

variable {now : Symbol Float} {offered : List Explanation}

/-- The next candidate is taken exactly if it is better than all before it. -/
theorem Offered.taken_iff (hlen : s.examples.length < 2 ^ 64) (h : Offered s offered now)
    (p : Program) :
    (now.consider p).value.1 = true ↔ ∀ e ∈ offered, s.Better (some p) e := by
  obtain ⟨best, hbest, hsame⟩ := h.best
  rw [taken_iff_better h.learnable h.scored, ← hbest.better_iff_all hlen]
  -- the scores are still on the first examples
  unfold Better
  rw [likelihoodOf_congr h.examples h.settings]
  exact (better_congr_right hsame).symm

theorem Offered.consider (hlen : s.examples.length < 2 ^ 64) (h : Offered s offered now)
    (p : Program) : Offered s (offered ++ [some p]) (now.consider p).value.2 where
  learnable := (now.learnable_consider p).trans h.learnable
  scored := scored_consider h.scored p
  examples := (now.examples_consider p).trans h.examples
  settings := (now.sameRecord_consider p).1.settings.trans h.settings
  best := by
    have htaken := h.taken_iff hlen p
    obtain ⟨best, hbest, hsame⟩ := h.best
    rw [← hbest.better_iff_all hlen] at htaken
    rcases now.consider_cases p with ⟨-, heq⟩ | ⟨-, -, heq⟩ <;> rw [heq] at htaken ⊢
    · exact ⟨best, hbest.concat_of_not (by simpa using htaken), hsame⟩
    · exact ⟨some p, hbest.concat_of_better hlen (by simpa using htaken), now.same_withCandidate p⟩

theorem Offered.considerAll (hlen : s.examples.length < 2 ^ 64) (h : Offered s offered now)
    (ps : List Program) : Offered s (offered ++ ps.map some) (now.considerAll ps) := by
  induction ps generalizing now offered with
  | nil => rwa [List.map_nil, List.append_nil]
  | cons p ps ih =>
    rw [List.map_cons, List.append_cons]
    exact ih (h.consider hlen p)

theorem Offered.likelihood_eq {best : Explanation} (h : Offered s offered now)
    (hsame : Explanation.Same best now.explanation) : now.likelihood = s.likelihoodOf best := by
  rw [h.scored.likelihood_eq, likelihoodOf_congr h.examples h.settings]
  exact congrArg Score.likelihood (score_eq_of_same hsame.symm _ _)

/-- Offering candidates picks the best and nothing else. Whatever has happened to a
symbol that is learned, and whatever candidates are offered to it, it ends with the first
best of its program and the candidates. A further one is taken exactly if it is better
than all of these, and otherwise nothing changes. In whatever order the candidates are
offered, the symbol ends with the same likelihood, and with a text of the same size. The
examples are only required to be as many as a machine word can count. -/
theorem offers_pick_the_first_best (idx arity : Nat) (settings : Settings Float)
    (changes : List Change)
    (hlen : ((fresh idx arity settings).after changes).examples.length < 2 ^ 64)
    (candidates : List Program) :
    let s := (fresh idx arity settings).after changes
    let now := s.considerAll candidates
    (∃ best, s.FirstBest (s.explanation :: candidates.map some) best ∧
        Explanation.Same best now.explanation) ∧
      (∀ p : Program,
        ((now.consider p).value.1 = true ↔
          ∀ e ∈ s.explanation :: candidates.map some, s.Better (some p) e) ∧
        ((now.consider p).value.1 = false → (now.consider p).value.2 = now)) ∧
      ∀ reordered : List Program, candidates.Perm reordered →
        (s.considerAll reordered).likelihood = now.likelihood ∧
          (s.considerAll reordered).explanation.text.utf8ByteSize =
            now.explanation.text.utf8ByteSize := by
  intro s now
  have h : s.Learned arity settings := learned_after idx arity settings changes
  have hstart : Offered s [s.explanation] s :=
    ⟨h.learnable, h.scored, rfl, rfl, s.explanation, firstBest_singleton hlen _, rfl⟩
  have hall := hstart.considerAll hlen
  have hnow := hall candidates
  refine ⟨hnow.best, fun p => ⟨hnow.taken_iff hlen p, fun hpassed => ?_⟩, fun reordered hperm => ?_⟩
  · rcases now.consider_cases p with ⟨-, heq⟩ | ⟨-, -, heq⟩
    · rw [heq]
    · rw [heq] at hpassed
      cases hpassed
  · obtain ⟨best, hbest, hsame⟩ := hnow.best
    obtain ⟨best', hbest', hsame'⟩ := (hall reordered).best
    have hlevel := hbest'.placeOf_eq hlen hbest ((hperm.symm.map some).append_left [s.explanation])
    obtain ⟨hlikelihood, hsize⟩ := eq_of_placeOf hlevel
    rw [(hall reordered).likelihood_eq hsame', hnow.likelihood_eq hsame, ← hsame'.text_eq,
      ← hsame.text_eq]
    exact ⟨hlikelihood, hsize⟩

set_option maxRecDepth 1000 in
/-- The successor takes the place of the identity, and is not replaced by itself. It is
as likely if it is offered first. -/
theorem the_successor_stays_in_any_order :
    let s := (fresh 0 1 (Settings.default : Settings Float)).after
      [.observe [⟨[.int 1], .int 2⟩, ⟨[.int 2], .int 3⟩]]
    let identity : Program := .ofTerm (.lam (.var 0))
    let successor : Program := .ofTerm (.lam (.app (.prim .incr) (.var 0)))
    let now := s.considerAll [identity, successor]
    s.examples.length < 2 ^ 64 ∧ now.correct = some [true, true] ∧
      ((now.consider successor).value.1 = true ↔
        ∀ e ∈ [s.explanation, some identity, some successor], s.Better (some successor) e) ∧
      (now.consider successor).value.1 = false ∧
      (s.considerAll [successor, identity]).likelihood = now.likelihood := by
  intro s identity successor now
  have hlen : s.examples.length < 2 ^ 64 := by decide
  obtain ⟨-, htaken, hreordered⟩ := offers_pick_the_first_best 0 1 Settings.default
    [.observe [⟨[.int 1], .int 2⟩, ⟨[.int 2], .int 3⟩]] hlen [identity, successor]
  exact ⟨hlen, by decide, (htaken successor).1, by decide,
    (hreordered [successor, identity] (.swap _ _ _)).1⟩

end SymbolInduction.Symbol
