-- What loading a saved model comes to. A model with another number of symbols
-- leaves the learner alone. Any other is taken up symbol by symbol, and each
-- symbol takes over the saved numbers before it reads the saved text: a text
-- that is no program leaves the symbols before it loaded, its own symbol with
-- new numbers and the old program, and those after it alone.
import SymbolInduction.Learner.Saved
import SymbolInduction.Proofs.Score

namespace SymbolInduction

variable {α : Type}

/-- The explanation that was saved, where the text is a program. -/
def SavedSymbol.explanation? (m : SavedSymbol α) : Except ParseError Explanation :=
  match m.program with
  | none => .ok none
  | some text => some <$> Program.ofText text

namespace Symbol

/-! ## One symbol -/

/-- What can be seen of a symbol is the same. -/
structure SameStanding (s s' : Symbol α) : Prop where
  idx : s'.idx = s.idx
  arity : s'.arity = s.arity
  solved : s'.solved = s.solved
  likelihood : s'.likelihood = s.likelihood
  explanation : Explanation.Same s'.explanation s.explanation
  examples : s'.examples = s.examples

/-- The symbol has the numbers that were saved. -/
structure HasNumbers (s : Symbol α) (m : SavedSymbol α) : Prop where
  idx : m.idx = s.idx
  arity : m.arity = s.arity
  solved : m.solved = s.solved
  likelihood : m.likelihood = s.likelihood

/-- The symbol has the program that was saved, if it is one that is learned. -/
def HasProgram (s : Symbol α) (m : SavedSymbol α) : Prop :=
  s.learnable = true → ∀ e, m.explanation? = .ok e → Explanation.Same e s.explanation

/-- The symbol is learned, and the text that was saved is no program. -/
def Refuses (s : Symbol α) (m : SavedSymbol α) (e : ParseError) : Prop :=
  s.learnable = true ∧ m.explanation? = .error e

/-- The symbol with the numbers that were saved. -/
def withNumbers (s : Symbol α) (m : SavedSymbol α) : Symbol α :=
  { s with idx := m.idx, solved := m.solved, likelihood := m.likelihood, arity := m.arity }

theorem sameStanding_self (s : Symbol α) : SameStanding s s := ⟨rfl, rfl, rfl, rfl, rfl, rfl⟩

theorem sameStanding_withNumbers_iff {s : Symbol α} {m : SavedSymbol α} :
    SameStanding s (s.withNumbers m) ↔ s.HasNumbers m :=
  ⟨fun h => ⟨h.idx, h.arity, h.solved, h.likelihood⟩,
    fun h => ⟨h.idx, h.arity, h.solved, h.likelihood, rfl, rfl⟩⟩

theorem load_of_pinned {s : Symbol α} (h : s.learnable = false) (m : SavedSymbol α) :
    s.load m = (.ok (), s.withNumbers m) := by
  unfold load
  dsimp only
  rw [if_pos (by simp [h])]
  rfl

theorem load_of_learnable {s : Symbol α} (h : s.learnable = true) (m : SavedSymbol α) :
    s.load m =
      match m.explanation? with
      | .ok e => (.ok (), { s.withNumbers m with explanation := e })
      | .error e => (.error e, s.withNumbers m) := by
  unfold load SavedSymbol.explanation?
  dsimp only
  rw [if_neg (by simp [h])]
  cases m.program with
  | none => rfl
  | some text =>
    dsimp only
    cases Program.ofText text <;> rfl

theorem load_of_refuses {s : Symbol α} {m : SavedSymbol α} {e : ParseError} (h : s.Refuses m e) :
    s.load m = (.error e, s.withNumbers m) := by
  rw [load_of_learnable h.1, h.2]

/-- A symbol that does not refuse what was saved is as it was exactly where it
had all of that before. -/
theorem load_of_accepts {s : Symbol α} {m : SavedSymbol α} (h : ∀ e, ¬s.Refuses m e) :
    (s.load m).1 = .ok () ∧
      (SameStanding s (s.load m).2 ↔ s.HasNumbers m ∧ s.HasProgram m) := by
  cases hs : s.learnable with
  | false =>
    rw [load_of_pinned hs]
    refine ⟨rfl, sameStanding_withNumbers_iff.trans (Iff.symm (and_iff_left ?_))⟩
    intro hlearnable
    rw [hs] at hlearnable
    cases hlearnable
  | true =>
    rw [load_of_learnable hs]
    cases hm : m.explanation? with
    | error e => exact absurd ⟨hs, hm⟩ (h e)
    | ok e =>
      refine ⟨rfl, ?_⟩
      constructor
      · intro hsame
        refine ⟨⟨hsame.idx, hsame.arity, hsame.solved, hsame.likelihood⟩, ?_⟩
        intro _ e' he'
        rw [hm] at he'
        cases he'
        exact hsame.explanation
      · rintro ⟨hnumbers, hprogram⟩
        exact ⟨hnumbers.idx, hnumbers.arity, hnumbers.solved, hnumbers.likelihood,
          hprogram hs e hm, rfl⟩

end Symbol

namespace Learner

/-! ## One symbol after another -/

/-- The symbol at position `k` is the first one to refuse what was saved. -/
structure FirstRefusal (symbols : List (Symbol α)) (model : List (SavedSymbol α)) (k : Nat)
    (e : ParseError) : Prop where
  refused : ∃ s m, symbols[k]? = some s ∧ model[k]? = some m ∧ s.Refuses m e
  accepted : ∀ j < k, ∀ s m, symbols[j]? = some s → model[j]? = some m → ∀ e, ¬s.Refuses m e

theorem firstRefusal_zero {s : Symbol α} {symbols : List (Symbol α)} {m : SavedSymbol α}
    {model : List (SavedSymbol α)} {e : ParseError} :
    FirstRefusal (s :: symbols) (m :: model) 0 e ↔ s.Refuses m e := by
  constructor
  · rintro ⟨⟨_, _, ⟨⟩, ⟨⟩, h⟩, -⟩
    exact h
  · intro h
    exact ⟨⟨s, m, rfl, rfl, h⟩, fun j hj => absurd hj j.not_lt_zero⟩

theorem firstRefusal_succ {s : Symbol α} {symbols : List (Symbol α)} {m : SavedSymbol α}
    {model : List (SavedSymbol α)} {k : Nat} {e : ParseError} :
    FirstRefusal (s :: symbols) (m :: model) (k + 1) e ↔
      (∀ e, ¬s.Refuses m e) ∧ FirstRefusal symbols model k e := by
  constructor
  · rintro ⟨hrefused, haccepted⟩
    exact ⟨haccepted 0 k.succ_pos s m rfl rfl, hrefused,
      fun j hj => haccepted (j + 1) (Nat.succ_lt_succ hj)⟩
  · rintro ⟨hs, hrefused, haccepted⟩
    refine ⟨hrefused, fun j hj => ?_⟩
    cases j with
    | zero =>
      rintro _ _ ⟨⟩ ⟨⟩
      exact hs
    | succ j => exact haccepted j (Nat.lt_of_succ_lt_succ hj)

/-- Where no symbol refuses what was saved, all of it is taken up. -/
theorem loadSymbols_of_accepts {symbols : List (Symbol α)} {model : List (SavedSymbol α)}
    (h : ∀ k e, ¬FirstRefusal symbols model k e) : (loadSymbols symbols model).1 = .ok () := by
  induction symbols generalizing model with
  | nil => rfl
  | cons s symbols ih =>
    cases model with
    | nil => rfl
    | cons m model =>
      have hs : ∀ e, ¬s.Refuses m e := fun e he => h 0 e (firstRefusal_zero.2 he)
      have hrest := ih fun k e hk => h (k + 1) e (firstRefusal_succ.2 ⟨hs, hk⟩)
      have hloaded := (Symbol.load_of_accepts hs).1
      unfold loadSymbols
      generalize s.load m = out at hloaded ⊢
      obtain ⟨_, s'⟩ := out
      cases hloaded
      exact hrest

/-- The symbols up to the first refusal are loaded, and those after it are as
they were. -/
theorem loadSymbols_of_refusal {symbols : List (Symbol α)} {model : List (SavedSymbol α)} {k : Nat}
    {e : ParseError} (h : FirstRefusal symbols model k e) :
    (loadSymbols symbols model).1 = .error e ∧
      ∀ j s m, symbols[j]? = some s → model[j]? = some m →
        (loadSymbols symbols model).2[j]? = some (if j ≤ k then (s.load m).2 else s) := by
  induction symbols generalizing model k with
  | nil =>
    obtain ⟨_, _, ⟨⟩, -⟩ := h.refused
  | cons s symbols ih =>
    cases model with
    | nil =>
      obtain ⟨_, _, -, ⟨⟩, -⟩ := h.refused
    | cons m model =>
      unfold loadSymbols
      cases k with
      | zero =>
        rw [Symbol.load_of_refuses (firstRefusal_zero.1 h)]
        refine ⟨rfl, fun j t n ht hn => ?_⟩
        cases j with
        | zero =>
          cases ht
          cases hn
          rw [Symbol.load_of_refuses (firstRefusal_zero.1 h)]
          rfl
        | succ j => exact ht
      | succ k =>
        obtain ⟨hs, hrest⟩ := firstRefusal_succ.1 h
        obtain ⟨houtcome, hsymbols⟩ := ih hrest
        have hloaded := (Symbol.load_of_accepts hs).1
        have hpair : s.load m = (.ok (), (s.load m).2) := Prod.ext hloaded rfl
        rw [hpair]
        refine ⟨houtcome, fun j t n ht hn => ?_⟩
        cases j with
        | zero =>
          cases ht
          cases hn
          rfl
        | succ j =>
          have hj := hsymbols j t n ht hn
          simp only [Nat.add_le_add_iff_right]
          exact hj

/-- A symbol up to the first refusal is as it was exactly where it had the saved
numbers before, and, if it is not the one that refuses, the saved program. -/
theorem sameStanding_load_iff {symbols : List (Symbol α)} {model : List (SavedSymbol α)} {k : Nat}
    {e : ParseError} (h : FirstRefusal symbols model k e) {j : Nat} (hj : j ≤ k) {s : Symbol α}
    (hs : symbols[j]? = some s) {m : SavedSymbol α} (hm : model[j]? = some m) :
    Symbol.SameStanding s (s.load m).2 ↔ s.HasNumbers m ∧ (j < k → s.HasProgram m) := by
  rcases Nat.lt_or_eq_of_le hj with hlt | rfl
  · rw [(Symbol.load_of_accepts (h.accepted j hlt s m hs hm)).2]
    exact and_congr_right fun _ => ⟨fun hprogram _ => hprogram, fun hprogram => hprogram hlt⟩
  · obtain ⟨s₀, m₀, hs₀, hm₀, hrefuses⟩ := h.refused
    obtain rfl := Option.some.inj (hs.symm.trans hs₀)
    obtain rfl := Option.some.inj (hm.symm.trans hm₀)
    rw [Symbol.load_of_refuses hrefuses, Symbol.sameStanding_withNumbers_iff]
    exact (and_iff_left fun hlt => absurd hlt (Nat.lt_irrefl _)).symm

/-! ## The whole model -/

/-- The model is taken up, or it is not and every symbol is as it was. -/
def AllOrNothing (l : Learner α) (model : List (SavedSymbol α)) : Prop :=
  (l.load (some model)).1 = .ok () ∨
    ∀ (j : Nat) (s : Symbol α), l.symbols[j]? = some s →
      ∃ s', (l.load (some model)).2.symbols[j]? = some s' ∧ s.SameStanding s'

theorem load_of_length_ne {l : Learner α} {model : List (SavedSymbol α)}
    (h : model.length ≠ l.symbols.length) :
    l.load (some model) = (.error (.shape l.symbols.length model.length), l) := by
  unfold load
  dsimp only
  rw [if_pos h]

theorem load_of_length_eq {l : Learner α} {model : List (SavedSymbol α)}
    (h : model.length = l.symbols.length) :
    l.load (some model) = ((loadSymbols l.symbols model).1.mapError .program,
      { l with symbols := (loadSymbols l.symbols model).2 }) := by
  unfold load
  dsimp only
  rw [if_neg (not_not_intro h)]

/-- A load is all or nothing exactly where the first symbol to refuse what was
saved had the saved numbers before, and each symbol before that one had all that
was saved of it. -/
theorem a_load_is_all_or_nothing_iff (l : Learner α) (model : List (SavedSymbol α)) :
    AllOrNothing l model ↔
      ∀ k e, model.length = l.symbols.length → FirstRefusal l.symbols model k e →
        ∀ j ≤ k, ∀ s m, l.symbols[j]? = some s → model[j]? = some m →
          s.HasNumbers m ∧ (j < k → s.HasProgram m) := by
  unfold AllOrNothing
  constructor
  · intro h k e hlen hfirst j hj s m hs hm
    obtain ⟨houtcome, hsymbols⟩ := loadSymbols_of_refusal hfirst
    rw [load_of_length_eq hlen, houtcome] at h
    obtain ⟨s', hs', hstanding⟩ := h.resolve_left (fun h => by cases h) j s hs
    have hloaded := hsymbols j s m hs hm
    rw [if_pos hj] at hloaded
    obtain rfl := Option.some.inj (hs'.symm.trans hloaded)
    exact (sameStanding_load_iff hfirst hj hs hm).1 hstanding
  · intro h
    by_cases hlen : model.length = l.symbols.length
    · rw [load_of_length_eq hlen]
      by_cases hrefusal : ∃ k e, FirstRefusal l.symbols model k e
      · obtain ⟨k, e, hfirst⟩ := hrefusal
        refine Or.inr fun j s hs => ?_
        have hm := List.getElem?_eq_getElem (hlen ▸ (List.getElem?_eq_some_iff.1 hs).1)
        refine ⟨_, (loadSymbols_of_refusal hfirst).2 j s _ hs hm, ?_⟩
        split
        · rename_i hj
          exact (sameStanding_load_iff hfirst hj hs hm).2 (h k e hlen hfirst j hj s _ hs hm)
        · exact s.sameStanding_self
      · refine Or.inl ?_
        rw [loadSymbols_of_accepts fun k e hfirst => hrefusal ⟨k, e, hfirst⟩]
        rfl
    · rw [load_of_length_ne hlen]
      exact Or.inr fun j s hs => ⟨s, hs, s.sameStanding_self⟩

/-! ### A model with one text that is no program -/

/-- A new learner with three symbols. -/
def untaught : Learner Float :=
  .new [{ name := "first", arity := 1 }, { name := "second", arity := 1 },
    { name := "third", arity := 1 }] .default

/-- A model of three solved symbols, where the text of the second one breaks off. -/
def brokenModel : List (SavedSymbol Float) :=
  [{ idx := 0, solved := true, likelihood := Scalar.one, arity := 1, program := some "(lambda $0)" },
    { idx := 1, solved := true, likelihood := Scalar.one, arity := 1, program := some "(lambda" },
    { idx := 2, solved := true, likelihood := Scalar.one, arity := 1, program := some "(lambda $0)" }]

/-- The load fails, and yet the first symbol has its program and the second one
is solved without any. -/
theorem a_failed_load_solves_a_symbol_without_a_program :
    (untaught.load (some brokenModel)).1 = .error (.program .unexpectedEnd) ∧
      (untaught.load (some brokenModel)).2.symbols.map (fun s => (s.solved, s.explanation.text)) =
        [(true, "fn (lambda $0)"), (true, "NULL"), (false, "NULL")] ∧
      ¬AllOrNothing untaught brokenModel := by
  have hstates : (untaught.load (some brokenModel)).2.symbols.map
      (fun s => (s.solved, s.explanation.text)) =
        [(true, "fn (lambda $0)"), (true, "NULL"), (false, "NULL")] := by decide +kernel
  have houtcome : (untaught.load (some brokenModel)).1 = .error (.program .unexpectedEnd) := by
    decide +kernel
  refine ⟨houtcome, hstates, ?_⟩
  rintro (h | h)
  · rw [houtcome] at h
    cases h
  · obtain ⟨s', hs', hstanding⟩ := h 1 _ rfl
    have hsolved := congrArg (·[1]?) hstates
    rw [List.getElem?_map, hs'] at hsolved
    have hsame := hstanding.solved
    cases hsame.symm.trans (congrArg Prod.fst (Option.some.inj hsolved))

end Learner

end SymbolInduction
