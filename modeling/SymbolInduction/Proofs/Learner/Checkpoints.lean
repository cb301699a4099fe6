-- Checkpoints. What a learner has learned can be saved and taken up by a new
-- learner for the same vocabulary, whatever rounds the old one has been through:
-- a symbol that is learned has the program of a term or none, and a term reads
-- back from its text, while one that is not learned has in both learners the
-- program that the vocabulary gives it.
import SymbolInduction.Proofs.Learner.Loading
import SymbolInduction.Proofs.Learner.Operations
import SymbolInduction.Proofs.Term.RoundTrip

namespace SymbolInduction

namespace Explanation

/-- The explanation, if there is one, is the program of a term. -/
def OfTerm (e : Explanation) : Prop := ∀ p, e = some p → ∃ t, p.body = .term t

theorem Same.ofTerm {e e' : Explanation} (h : Same e e') (he : OfTerm e) : OfTerm e' := by
  rcases h.cases with ⟨rfl, rfl⟩ | ⟨p, q, rfl, rfl, hbody⟩
  · exact he
  · rintro _ ⟨⟩
    obtain ⟨t, ht⟩ := he p rfl
    exact ⟨t, hbody.symm.trans ht⟩

end Explanation

namespace Symbol

open Explanation (Same OfTerm)

variable {α : Type}

/-! ## Restoring one symbol -/

/-- What the symbol `s` has to have in common with the new symbol `s₀`, so that
its saved form can be taken up by that one. -/
structure Restorable (s₀ s : Symbol α) : Prop where
  learnable : s.learnable = s₀.learnable
  learned : s₀.learnable = true → OfTerm s.explanation
  pinned : s₀.learnable = false → Same s.explanation s₀.explanation

/-- The symbol `s'` stands as `s` does, and its program does the same. -/
structure Restored (s s' : Symbol α) : Prop where
  idx : s'.idx = s.idx
  arity : s'.arity = s.arity
  solved : s'.solved = s.solved
  likelihood : s'.likelihood = s.likelihood
  text : s'.explanation.text = s.explanation.text
  output : ∀ xs, (s'.explanation.evaluate (α := α) xs).value.1 =
    (s.explanation.evaluate (α := α) xs).value.1
  save : s'.save = s.save

/-- The saved text of a term is read as that term. -/
theorem explanation?_save {s : Symbol α} (h : OfTerm s.explanation) :
    ∃ e, s.save.explanation? = .ok e ∧ Same e s.explanation := by
  unfold SavedSymbol.explanation? save
  cases hs : s.explanation with
  | none => exact ⟨none, rfl, rfl⟩
  | some p =>
    obtain ⟨t, ht⟩ := h p hs
    refine ⟨some (.ofTerm t), ?_, congrArg some ht.symm⟩
    have hread : Program.ofText p.description = .ok (.ofTerm t) := by
      unfold Program.ofText Program.description
      rw [ht]
      exact congrArg (Program.ofTerm <$> ·) (Term.ofText_text t)
    simp only [Option.map_some, hread]
    rfl

/-- A new symbol takes up what was saved of an old one. -/
theorem Restorable.load {s₀ s : Symbol α} (h : Restorable s₀ s) :
    (s₀.load s.save).1 = .ok () ∧ Restored s (s₀.load s.save).2 := by
  have hrestored : ∀ e, Same e s.explanation →
      Restored s { s₀.withNumbers s.save with explanation := e } := by
    intro e he
    have hdescription : e.map Program.description = s.explanation.map Program.description := by
      have hbodies := congrArg (Option.map Body.description) he
      rwa [Option.map_map, Option.map_map] at hbodies
    refine ⟨rfl, rfl, rfl, rfl, he.text_eq, fun xs => ?_, ?_⟩
    · rw [Explanation.evaluate_output, Explanation.evaluate_output]
      exact he.output_eq xs
    · unfold save
      rw [hdescription]
      rfl
  cases hs₀ : s₀.learnable with
  | false =>
    rw [load_of_pinned hs₀]
    exact ⟨rfl, hrestored s₀.explanation (h.pinned hs₀).symm⟩
  | true =>
    obtain ⟨e, hread, he⟩ := explanation?_save (h.learned hs₀)
    rw [load_of_learnable hs₀, hread]
    exact ⟨rfl, hrestored e he⟩

/-! ## What a symbol keeps -/

theorem Restorable.of_same {s₀ s s' : Symbol α} (h : Restorable s₀ s)
    (hlearnable : s'.learnable = s.learnable) (hsame : Same s.explanation s'.explanation) :
    Restorable s₀ s' where
  learnable := hlearnable.trans h.learnable
  learned hs₀ := hsame.ofTerm (h.learned hs₀)
  pinned hs₀ := hsame.symm.trans (h.pinned hs₀)

theorem Restorable.of_learnable {s₀ s s' : Symbol α} (h : Restorable s₀ s)
    (hs : s.learnable = true) (hlearnable : s'.learnable = s.learnable)
    (hterm : OfTerm s'.explanation) : Restorable s₀ s' where
  learnable := hlearnable.trans h.learnable
  learned _ := hterm
  pinned hs₀ := by
    rw [← h.learnable, hs] at hs₀
    cases hs₀

variable [Scalar α]

theorem Restorable.turn {s₀ s s' : Symbol α} (h : Restorable s₀ s) (hturn : Turn s s') :
    Restorable s₀ s' := by
  cases hturn with
  | observe hs batch =>
    exact h.of_same ((learnable_observe hs batch).trans hs.symm) (same_observe hs batch)
  | consider t =>
    rcases s.same_consider (.ofTerm t) with hsame | ⟨hs, hsame⟩
    · exact h.of_same (s.learnable_consider _) hsame
    · exact h.of_learnable hs (s.learnable_consider _)
        (hsame.ofTerm fun p hp => ⟨t, by cases hp; rfl⟩)
  | remember hsame => exact h.of_same rfl hsame
  | clear hs => exact h.of_learnable hs rfl fun p hp => by cases hp

theorem Restorable.turns {s₀ s s' : Symbol α} (h : Restorable s₀ s) (hturns : Turns s s') :
    Restorable s₀ s' := by
  induction hturns with
  | refl => exact h
  | tail _ hturn ih => exact ih.turn hturn

end Symbol

namespace Learner

variable {α : Type}

/-! ## Restoring a learner -/

theorem loadSymbols_restored {news olds : List (Symbol α)}
    (h : List.Forall₂ Symbol.Restorable news olds) :
    (loadSymbols news (olds.map Symbol.save)).1 = .ok () ∧
      List.Forall₂ Symbol.Restored olds (loadSymbols news (olds.map Symbol.save)).2 := by
  induction h with
  | nil => exact ⟨rfl, .nil⟩
  | @cons s₀ s news olds hs _ ih =>
    obtain ⟨houtcome, hrestored⟩ := hs.load
    rw [List.map_cons]
    unfold loadSymbols
    generalize s₀.load s.save = out at houtcome hrestored
    obtain ⟨_, s'⟩ := out
    cases houtcome
    exact ⟨ih.1, .cons hrestored ih.2⟩

theorem map_save_eq {symbols restored : List (Symbol α)}
    (h : List.Forall₂ Symbol.Restored symbols restored) :
    restored.map Symbol.save = symbols.map Symbol.save := by
  induction h with
  | nil => rfl
  | cons hs _ ih => rw [List.map_cons, List.map_cons, hs.save, ih]

variable [Scalar α]

/-- Each symbol of a new learner can be restored from itself. -/
theorem restorable_new (vocabulary : Vocabulary) (options : Options α) :
    ∀ s ∈ (new vocabulary options).symbols, Symbol.Restorable s s := by
  intro s hs
  refine ⟨rfl, fun hlearnable => ?_, fun _ => rfl⟩
  obtain ⟨i, hi, rfl⟩ := List.mem_mapIdx.1 hs
  unfold symbolFor at hlearnable ⊢
  split
  · rename_i h1 h2
    rw [h1, h2] at hlearnable
    cases hlearnable
  · rintro p ⟨⟩

/-- Whatever rounds of learning with any oracles, changes of the grammar, new
scores and merges a new learner has been through, another new learner for the
same vocabulary and options takes up its checkpoint without an error. After that
each symbol stands as in the old one and does the same, and a checkpoint of the
new learner is the same again. -/
theorem a_checkpoint_restores_what_was_learned (vocabulary : Vocabulary) (options : Options α)
    {operations : List (Operation α)} (h : ∀ op ∈ operations, op.isLearning = true) :
    let l := (new vocabulary options).after operations
    ∃ l', (new vocabulary options).load (some l.save) = (.ok (), l') ∧
      List.Forall₂ Symbol.Restored l.symbols l'.symbols ∧ l'.save = l.save := by
  intro l
  have hturns : List.Forall₂ Symbol.Turns (new vocabulary options).symbols l.symbols :=
    succeeds_after _ h
  have hrestorable : List.Forall₂ Symbol.Restorable (new vocabulary options).symbols l.symbols :=
    ((List.forall₂_and_left _ _).2 ⟨restorable_new vocabulary options, hturns⟩).imp
      fun s₀ s ⟨hs₀, hs⟩ => hs₀.turns hs
  obtain ⟨houtcome, hrestored⟩ := loadSymbols_restored hrestorable
  have hlen : l.save.length = (new vocabulary options).symbols.length := by
    unfold save
    rw [List.length_map, hrestorable.length_eq]
  refine ⟨{ new vocabulary options with symbols := _ }, ?_, hrestored, map_save_eq hrestored⟩
  rw [load_of_length_eq hlen]
  unfold save
  rw [houtcome]
  rfl

/-! ### A symbol that gives back its argument, and a constant -/

/-- A symbol that is learned, and one that is not. -/
def echoAndOne : Vocabulary := [{ name := "echo", arity := 1 }, .pinned "one" (.constant (.int 1))]

/-- New programs are asked for in every round. -/
def inEveryRound : Options Float := { Options.default with schedule := .always }

/-- An oracle that knows one program for the first symbol. -/
def echoOracle : Oracle Float := fun _ => pure <| .ok
  { solutions := .ofList [("0",
      { task := "0", request := .ofComponents [.int, .int]
        candidates := [{ program := .lam (.var 0), logPrior := Scalar.zero
                         logLikelihood := Scalar.zero }] })] }

/-- One round with one example, and what may follow it. -/
def oneLesson : List (Operation Float) :=
  [.learn (fun _ _ _ => .first) [[⟨[.int 4], .int 4⟩]] echoOracle, .updateGrammar, .merge]

/-- A learner that has learned to give back an argument can be restored. -/
theorem a_learned_echo_is_restored :
    (∀ op ∈ oneLesson, op.isLearning = true) ∧
      let l := (new echoAndOne inEveryRound).after oneLesson
      l.symbols.map (·.explanation.text) = ["fn (lambda $0)", "1 1"] ∧
        ∃ l', (new echoAndOne inEveryRound).load (some l.save) = (.ok (), l') ∧
          List.Forall₂ Symbol.Restored l.symbols l'.symbols ∧ l'.save = l.save := by
  have hlearning : ∀ op ∈ oneLesson, op.isLearning = true := by
    simp [oneLesson, Operation.isLearning]
  exact ⟨hlearning, by decide +kernel,
    a_checkpoint_restores_what_was_learned echoAndOne inEveryRound hlearning⟩

end Learner

end SymbolInduction
