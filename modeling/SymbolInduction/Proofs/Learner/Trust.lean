-- Symbols that are not learned. Whatever is done to a learner, such a symbol stays
-- one that is not learned and keeps its program. Its likelihood and whether it is
-- solved are touched by two operations only: new symbols freeze it, which makes it
-- likely and solved, and a saved model brings numbers of its own.
import SymbolInduction.Proofs.Learner.Places

namespace SymbolInduction

open Explanation (Same)

namespace Symbol

variable {α : Type}

/-- The likelihood of a symbol, and whether it is solved. -/
def standing (s : Symbol α) : α × Bool := (s.likelihood, s.solved)

/-- The symbol is not learned, in both states, and has the same program. -/
structure Frozen (s s' : Symbol α) : Prop where
  before : s.learnable = false
  after : s'.learnable = false
  explanation : Same s.explanation s'.explanation

theorem frozen_self {s : Symbol α} (h : s.learnable = false) : Frozen s s := ⟨h, h, rfl⟩

theorem Frozen.trans {s s' s'' : Symbol α} (h : Frozen s s') (h' : Frozen s' s'') :
    Frozen s s'' :=
  ⟨h.before, h'.after, h.explanation.trans h'.explanation⟩

theorem learnable_load (s : Symbol α) (m : SavedSymbol α) :
    (s.load m).2.learnable = s.learnable := by
  cases hs : s.learnable with
  | false => rw [load_of_pinned hs]; exact hs
  | true =>
    rw [load_of_learnable hs]
    cases m.explanation? <;> exact hs

variable [Scalar α]

/-! ## One turn -/

theorem Turn.learnable_eq {s s' : Symbol α} (h : Turn s s') : s'.learnable = s.learnable := by
  cases h with
  | observe hs batch => exact (learnable_observe hs batch).trans hs.symm
  | consider t => exact s.learnable_consider (.ofTerm t)
  | remember => rfl
  | clear => rfl

/-- A turn leaves a symbol that is not learned as it stands, with its program. -/
theorem Turn.frozen {s s' : Symbol α} (h : Turn s s') (hs : s.learnable = false) :
    Frozen s s' ∧ s'.standing = s.standing := by
  cases h with
  | observe hlearnable batch => cases hs.symm.trans hlearnable
  | consider t =>
    rcases s.consider_cases (.ofTerm t) with ⟨-, hpassed⟩ | ⟨hlearnable, -⟩
    · rw [hpassed]
      exact ⟨frozen_self hs, rfl⟩
    · cases hs.symm.trans hlearnable
  | remember hsame => exact ⟨⟨hs, hs, hsame⟩, rfl⟩
  | clear hlearnable => cases hs.symm.trans hlearnable

theorem learnable_of_turns {s s' : Symbol α} (h : Turns s s') : s'.learnable = s.learnable := by
  induction h with
  | refl => rfl
  | tail _ hturn ih => exact hturn.learnable_eq.trans ih

theorem frozen_of_turns {s s' : Symbol α} (h : Turns s s') (hs : s.learnable = false) :
    Frozen s s' ∧ s'.standing = s.standing := by
  induction h with
  | refl => exact ⟨frozen_self hs, rfl⟩
  | tail _ hturn ih =>
    obtain ⟨hfrozen, hstanding⟩ := hturn.frozen ih.1.after
    exact ⟨ih.1.trans hfrozen, hstanding.trans ih.2⟩

end Symbol

/-- The likelihood that was saved, and whether the symbol was solved. -/
def SavedSymbol.standing {α : Type} (m : SavedSymbol α) : α × Bool := (m.likelihood, m.solved)

namespace Learner

variable {α : Type}

/-! ## One operation -/

theorem getElem?_of_forall₂_left {β γ : Type} {R : β → γ → Prop} {xs : List β} {ys : List γ}
    (h : List.Forall₂ R xs ys) {i : Nat} {x : β} (hx : xs[i]? = some x) :
    ∃ y, ys[i]? = some y ∧ R x y :=
  getElem?_of_forall₂ h.flip hx

/-- Each symbol is as it was, or has taken up what was saved of it. -/
theorem forall₂_loadSymbols (symbols : List (Symbol α)) (model : List (SavedSymbol α)) :
    List.Forall₂ (fun s s' => s' = s ∨ ∃ m, s' = (s.load m).2) symbols
      (loadSymbols symbols model).2 := by
  have hkept : ∀ symbols : List (Symbol α),
      List.Forall₂ (fun s s' => s' = s ∨ ∃ m, s' = (s.load m).2) symbols symbols :=
    fun _ => List.forall₂_same.2 fun _ _ => Or.inl rfl
  induction symbols generalizing model with
  | nil => exact .nil
  | cons s symbols ih =>
    cases model with
    | nil => exact hkept _
    | cons m model =>
      have hs : ∃ m', (s.load m).2 = (s.load m').2 := ⟨m, rfl⟩
      unfold loadSymbols
      generalize (s.load m) = out at hs ⊢
      obtain ⟨outcome, s'⟩ := out
      cases outcome with
      | error e => exact .cons (Or.inr hs) (hkept _)
      | ok _ => exact .cons (Or.inr hs) (ih model)

variable [Scalar α]

theorem symbols_extend (l : Learner α) (arity : Nat) :
    ∃ s : Symbol α, s.learnable = true ∧
      (l.extend arity).value.2.symbols = l.symbols.map Symbol.freeze ++ [s] := by
  refine ⟨{ Symbol.fresh l.symbols.length arity l.options.settings with fewshot := true }, rfl, ?_⟩
  unfold extend
  simp only [Logged.value_bind, Logged.value_pure, (prepared_renew _ _).symbols]

/-- A symbol that is not learned stays one and keeps its program, also where a
model is not taken up. -/
theorem frozen_perform (l : Learner α) (op : Operation α) {i : Nat} {s : Symbol α}
    (hs : l.symbols[i]? = some s) (h : s.learnable = false) :
    ∃ s', (l.perform op).symbols[i]? = some s' ∧ s.Frozen s' := by
  have hturns : Succeeds l (l.perform op) →
      ∃ s', (l.perform op).symbols[i]? = some s' ∧ s.Frozen s' := fun hsucceeds => by
    obtain ⟨s', hs', hturns⟩ := getElem?_of_forall₂_left hsucceeds hs
    exact ⟨s', hs', (Symbol.frozen_of_turns hturns h).1⟩
  cases op with
  | extend arity =>
    obtain ⟨new, -, hsymbols⟩ := l.symbols_extend arity
    have hi : i < (l.symbols.map Symbol.freeze).length := by
      rw [List.length_map]
      exact (List.getElem?_eq_some_iff.1 hs).1
    refine ⟨s.freeze, ?_, h, rfl, rfl⟩
    change (l.extend arity).value.2.symbols[i]? = _
    rw [hsymbols, List.getElem?_append_left hi, List.getElem?_map, hs]
    rfl
  | load model =>
    cases model with
    | none => exact ⟨s, hs, Symbol.frozen_self h⟩
    | some model =>
      change ∃ s', (l.load (some model)).2.symbols[i]? = some s' ∧ _
      by_cases hlength : model.length = l.symbols.length
      · rw [load_of_length_eq hlength]
        obtain ⟨s', hs', rfl | ⟨m, rfl⟩⟩ :=
          getElem?_of_forall₂_left (forall₂_loadSymbols l.symbols model) hs
        · exact ⟨s', hs', Symbol.frozen_self h⟩
        · refine ⟨_, hs', h, (s.learnable_load m).trans h, ?_⟩
          rw [Symbol.load_of_pinned h]
          rfl
      · rw [load_of_length_ne hlength]
        exact ⟨s, hs, Symbol.frozen_self h⟩
  | _ => exact hturns (l.succeeds_perform rfl)

/-- What an operation gives to a symbol that is not learned: a likelihood, and
whether it is solved. -/
def Operation.standing? (i : Nat) : Operation α → Option (α × Bool)
  | .extend _ => some (Scalar.one, true)
  | .load (some model) => model[i]?.map SavedSymbol.standing
  | _ => none

/-- After an operation a symbol that is not learned stands as the operation says,
or as it stood before. -/
theorem standing_perform {l : Learner α} {op : Operation α}
    (hop : ∀ model, op = .load model → (l.load model).1 = .ok ()) {i : Nat} {s' : Symbol α}
    (hs' : (l.perform op).symbols[i]? = some s') (h : s'.learnable = false) :
    op.standing? i = some s'.standing ∨
      op.standing? i = none ∧
        ∃ s, l.symbols[i]? = some s ∧ s.learnable = false ∧ s'.standing = s.standing := by
  have hturns : op.standing? i = none → Succeeds l (l.perform op) →
      op.standing? i = some s'.standing ∨ op.standing? i = none ∧
        ∃ s, l.symbols[i]? = some s ∧ s.learnable = false ∧ s'.standing = s.standing := by
    intro hnone hsucceeds
    obtain ⟨s, hs, hturns⟩ := getElem?_of_forall₂ hsucceeds hs'
    have hlearnable := (Symbol.learnable_of_turns hturns).symm.trans h
    exact Or.inr ⟨hnone, s, hs, hlearnable, (Symbol.frozen_of_turns hturns hlearnable).2⟩
  cases op with
  | extend arity =>
    obtain ⟨new, hnew, hsymbols⟩ := l.symbols_extend arity
    change (l.extend arity).value.2.symbols[i]? = _ at hs'
    rw [hsymbols] at hs'
    rcases List.mem_append.1 (List.mem_of_getElem? hs') with hmem | hmem
    · obtain ⟨s, -, rfl⟩ := List.mem_map.1 hmem
      exact Or.inl rfl
    · obtain rfl := List.mem_singleton.1 hmem
      cases h.symm.trans hnew
  | load model =>
    cases model with
    | none => exact Or.inr ⟨rfl, s', hs', h, rfl⟩
    | some model =>
      change (l.load (some model)).2.symbols[i]? = _ at hs'
      rw [symbols_load (hop _ rfl), List.getElem?_zipWith_eq_some] at hs'
      obtain ⟨s, m, -, hm, rfl⟩ := hs'
      rw [Symbol.learnable_load] at h
      refine Or.inl ?_
      rw [Symbol.load_of_pinned h]
      exact congrArg (Option.map SavedSymbol.standing) hm
  | _ => exact hturns rfl (l.succeeds_perform rfl)

/-! ## Operations one after another -/

/-- How a symbol stands that is not learned: as the last operation says that says
something of it, and likely and solved where none does. -/
def lastStanding (i : Nat) (operations : List (Operation α)) : α × Bool :=
  (operations.filterMap (·.standing? i)).getLast?.getD (Scalar.one, true)

theorem lastStanding_concat (i : Nat) (operations : List (Operation α)) (op : Operation α) :
    lastStanding i (operations ++ [op]) = (op.standing? i).getD (lastStanding i operations) := by
  unfold lastStanding
  rw [List.filterMap_append, List.getLast?_append]
  cases hop : op.standing? i with
  | none => simp [hop]
  | some standing => simp [hop]

/-- Without saved models a symbol that is not learned is likely and solved. -/
theorem lastStanding_of_no_model (i : Nat) {operations : List (Operation α)}
    (h : ∀ op ∈ operations, op.model? = none) : lastStanding i operations = (Scalar.one, true) := by
  induction operations using List.reverseRecOn with
  | nil => rfl
  | append_singleton operations op ih =>
    have hop := h op (by simp)
    rw [lastStanding_concat, ih fun op' hop' => h op' (by simp [hop'])]
    cases op with
    | load model =>
      cases model with
      | none => rfl
      | some model => cases hop
    | _ => rfl

theorem frozen_after (l : Learner α) (operations : List (Operation α)) {i : Nat} {s : Symbol α}
    (hs : l.symbols[i]? = some s) (h : s.learnable = false) :
    ∃ s', (l.after operations).symbols[i]? = some s' ∧ s.Frozen s' := by
  induction operations generalizing l s with
  | nil => exact ⟨s, hs, Symbol.frozen_self h⟩
  | cons op operations ih =>
    obtain ⟨t, ht, hfrozen⟩ := l.frozen_perform op hs h
    obtain ⟨s', hs', hfrozen'⟩ := ih (l.perform op) ht hfrozen.after
    exact ⟨s', hs', hfrozen.trans hfrozen'⟩

theorem standing_new (vocabulary : Vocabulary) (options : Options α) {s : Symbol α}
    (hs : s ∈ (new vocabulary options).symbols) (h : s.learnable = false) :
    s.standing = (Scalar.one, true) := by
  obtain ⟨i, hi, rfl⟩ := List.mem_mapIdx.1 hs
  unfold symbolFor at h ⊢
  split
  · rfl
  · rename_i hnot
    split at h
    · exact absurd ‹_› (hnot _ ‹_›)
    · cases h

theorem standing_after (vocabulary : Vocabulary) (options : Options α)
    {operations : List (Operation α)} (h : (new vocabulary options).Accepts operations) {i : Nat}
    {s : Symbol α} (hs : ((new vocabulary options).after operations).symbols[i]? = some s)
    (hs' : s.learnable = false) : s.standing = lastStanding i operations := by
  induction operations using List.reverseRecOn generalizing s with
  | nil => exact standing_new vocabulary options (List.mem_of_getElem? hs) hs'
  | append_singleton operations op ih =>
    have hbefore : (new vocabulary options).Accepts operations := fun before model since hsplit =>
      h before model (since ++ [op]) (by rw [hsplit]; simp)
    rw [after_concat] at hs
    rw [lastStanding_concat]
    rcases standing_perform (fun model hop => h operations model [] (by rw [hop])) hs hs' with
      hgiven | ⟨hnone, t, ht, hlearnable, hstanding⟩
    · rw [hgiven]
      rfl
    · rw [hnone, hstanding]
      exact ih hbefore ht hlearnable

/-- In a learner that has come about from a new one, a symbol that is not learned
has the likelihood one and is solved, unless a saved model was taken up since the
last new symbol: then it has the likelihood of the last model and is solved if
that says so. Whatever is done later, it is not learned and keeps its program. -/
theorem trust_lasts_until_a_model_is_taken_up (vocabulary : Vocabulary) (options : Options α)
    {operations : List (Operation α)} (h : (new vocabulary options).Accepts operations) {i : Nat}
    {s : Symbol α} (hs : ((new vocabulary options).after operations).symbols[i]? = some s)
    (hlearnable : s.learnable = false) :
    (s.likelihood, s.solved) = lastStanding i operations ∧
      ((∀ op ∈ operations, op.model? = none) → s.likelihood = Scalar.one ∧ s.solved = true) ∧
      ∀ later, ∃ s', (((new vocabulary options).after operations).after later).symbols[i]? =
        some s' ∧ s'.learnable = false ∧ Same s.explanation s'.explanation := by
  have hstanding := standing_after vocabulary options h hs hlearnable
  refine ⟨hstanding, fun hnone => ?_, fun later => ?_⟩
  · rw [lastStanding_of_no_model i hnone] at hstanding
    exact Prod.mk.injEq .. ▸ hstanding
  · obtain ⟨s', hs', hfrozen⟩ := frozen_after _ later hs hlearnable
    exact ⟨s', hs', hfrozen.after, hfrozen.explanation⟩

/-! ### A symbol that is frozen, and a model that says less of a pinned one -/

/-- A lesson, and a new symbol. -/
def lessonAndSymbol : List (Operation Float) :=
  [.learn (fun _ _ _ => .first) [[⟨[.int 4], .int 4⟩]] echoOracle, .extend 1]

set_option maxRecDepth 2000 in
/-- A symbol that was learned is trusted once a new one has come, and keeps its
program from then on. -/
theorem a_frozen_echo_is_trusted :
    (new echoAndOne inEveryRound).Accepts lessonAndSymbol ∧
      ∃ s, ((new echoAndOne inEveryRound).after lessonAndSymbol).symbols[0]? = some s ∧
        s.learnable = false ∧ s.likelihood = Scalar.one ∧ s.solved = true ∧
        ∀ later, ∃ s', (((new echoAndOne inEveryRound).after lessonAndSymbol).after later).symbols[0]? =
          some s' ∧ s'.learnable = false ∧ Same s.explanation s'.explanation := by
  have haccepts : (new echoAndOne inEveryRound).Accepts lessonAndSymbol := by
    refine ((accepts_nil _).concat ?_).concat ?_
    · rintro _ ⟨⟩
    · rintro _ ⟨⟩
  have hfrozen : (((new echoAndOne inEveryRound).after lessonAndSymbol).symbols[0]?).map (·.learnable) =
      some false := by decide
  obtain ⟨s, hs, hlearnable⟩ := Option.map_eq_some_iff.1 hfrozen
  obtain ⟨-, htrusted, hlater⟩ :=
    trust_lasts_until_a_model_is_taken_up echoAndOne inEveryRound haccepts hs hlearnable
  have hnone : ∀ op ∈ lessonAndSymbol, op.model? = none := by
    intro op hop
    rcases List.mem_pair.1 hop with rfl | rfl <;> rfl
  exact ⟨haccepts, s, hs, hlearnable, (htrusted hnone).1, (htrusted hnone).2, hlater⟩

/-- A symbol that is pinned to its program. -/
def successor : Vocabulary :=
  [.pinned "succ" (.ofTerm (.lambdas 1 (.applied (.prim .incr) [.var 0])))]

set_option maxRecDepth 2000 in
/-- A model that knows nothing of a pinned symbol is taken up without an error, and
leaves the symbol unsolved and unlikely, with its program. A round changes nothing
of that. -/
theorem a_model_takes_trust_away :
    (new successor inEveryRound).Accepts [.load (some (unlearned [0]))] ∧
      ∀ rounds ∈ [[], [.learn (fun _ _ _ => .first) [[⟨[.int 4], .int 5⟩]] echoOracle]],
        ((new successor inEveryRound).after (.load (some (unlearned [0])) :: rounds)).symbols.map
          (fun s => (s.learnable, s.solved, Scalar.eq s.likelihood Scalar.zero, s.explanation.text)) =
            [(false, false, true, "fn (lambda (incr $0))")] := by
  refine ⟨(accepts_nil _).concat ?_, ?_⟩
  · rintro _ ⟨⟩
    decide
  · intro rounds hrounds
    rcases List.mem_pair.1 hrounds with rfl | rfl <;> decide

end Learner

end SymbolInduction
