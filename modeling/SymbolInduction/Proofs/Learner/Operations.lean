-- What is done to a learner: rounds of learning, changes of its grammar, new
-- scores of its frontiers, merges, new symbols and saved models, one after
-- another. All that a round, a change of the grammar or a merge does to a symbol
-- is a few turns: it observes or is cleared if it is learned, it is offered the
-- program of a term, or its program remembers more.
import SymbolInduction.Learner.Saved
import SymbolInduction.Proofs.Learner.Reached
import SymbolInduction.Proofs.Symbol.Histories

namespace SymbolInduction

/-! ## Turns of a symbol -/

namespace Symbol

variable {α : Type} [Scalar α]

/-- One thing that a learner does to a symbol of its vocabulary. -/
inductive Turn : Symbol α → Symbol α → Prop
  | observe {s : Symbol α} (h : s.learnable = true) (batch : List Example) :
      Turn s (s.observe batch).value
  | consider (s : Symbol α) (t : Term) : Turn s (s.consider (.ofTerm t)).value.2
  | remember (s : Symbol α) {e : Explanation} (h : Explanation.Same s.explanation e) :
      Turn s { s with explanation := e }
  | clear {s : Symbol α} (h : s.learnable = true) : Turn s s.clear

/-- What several turns make of a symbol. -/
abbrev Turns : Symbol α → Symbol α → Prop := Relation.ReflTransGen Turn

end Symbol

namespace Learner

open Relation (ReflTransGen)

/-! ## Lists of symbols -/

section

variable {β : Type} {R : β → β → Prop}

theorem forall₂_trans (hR : ∀ x y z, R x y → R y z → R x z) {xs ys zs : List β}
    (h : List.Forall₂ R xs ys) (h' : List.Forall₂ R ys zs) : List.Forall₂ R xs zs := by
  induction h generalizing zs with
  | nil => exact h'
  | cons hxy _ ih =>
    cases h' with
    | cons hyz hrest => exact .cons (hR _ _ _ hxy hyz) (ih hrest)

theorem forall₂_set (hR : ∀ x, R x x) {xs : List β} {i : Nat} {x y : β} (hx : xs[i]? = some x)
    (h : R x y) : List.Forall₂ R xs (xs.set i y) := by
  induction xs generalizing i with
  | nil => cases hx
  | cons a xs ih =>
    cases i with
    | zero =>
      cases hx
      exact .cons h (List.forall₂_same.2 fun b _ => hR b)
    | succ i => exact .cons (hR a) (ih hx)

end

/-- Each symbol of the one learner comes from the symbol at its position in the
other one by some turns. -/
def Succeeds {α : Type} [Scalar α] (l l' : Learner α) : Prop :=
  List.Forall₂ Symbol.Turns l.symbols l'.symbols

section

variable {α : Type} [Scalar α]

theorem succeeds_of_symbols_eq {l l' : Learner α} (h : l'.symbols = l.symbols) : Succeeds l l' := by
  unfold Succeeds
  rw [h]
  exact List.forall₂_same.2 fun _ _ => .refl

theorem Succeeds.trans {l l' l'' : Learner α} (h : Succeeds l l') (h' : Succeeds l' l'') :
    Succeeds l l'' :=
  forall₂_trans (fun _ _ _ => ReflTransGen.trans) h h'

/-! ## A round -/

theorem succeeds_observe (l : Learner α) (source : DrawSource) (data : List (List Example)) :
    Succeeds l (l.observe source data).value.2 := by
  refine (forall₂_observeFrom _ _ data 0 l.symbols).imp fun s s' hs' => ?_
  split at hs'
  · rename_i hs
    exact hs' ▸ .single (.observe hs _)
  · exact hs' ▸ .refl

omit [Scalar α] in
theorem body_agreement (p q : Program) (examples : List Example) :
    (agreement (α := α) p q examples).value.2.1.body = p.body := by
  induction examples generalizing p q with
  | nil => rfl
  | cons e examples ih =>
    unfold agreement
    simp only [Logged.value_bind]
    split
    · rw [ih, Program.evaluate_body]
    · exact Program.evaluate_body p e.inputs

omit [Scalar α] in
theorem body_promotedFor (options : Options α) (c : Canon) (p : Program) (own : Term)
    (examples : List Example) :
    (promotedFor options c p own examples).value.2.1.body = p.body := by
  unfold promotedFor
  simp only [Logged.value_bind]
  split
  · exact body_agreement p c.add examples
  · simp only [Logged.value_bind, Logged.value_pure]
    rw [body_agreement, body_agreement]

/-- A symbol whose program is promoted keeps it. -/
theorem succeeds_promotions (l : Learner α) (c : Canon) (symbols : List (Symbol α)) :
    List.Forall₂ Symbol.Turns symbols (l.promotions c symbols).value.2 := by
  induction symbols generalizing c with
  | nil => exact .nil
  | cons s symbols ih =>
    unfold promotions
    split
    · exact .cons .refl (ih c)
    · rename_i p t hpromotable
      refine .cons (.single (.remember s ?_)) (ih _)
      rw [(of_promotable? hpromotable).2.2]
      exact congrArg some (body_promotedFor _ _ p t s.examples).symm

theorem succeeds_updateGrammar (l : Learner α) : Succeeds l l.updateGrammar.value.2 := by
  unfold Succeeds updateGrammar
  simp only [Logged.value_bind]
  rw [(prepared_renew _ _).symbols]
  exact l.succeeds_promotions _ l.symbols

theorem succeeds_readyFor (l : Learner α) (tasks : List Task) : Succeeds l (l.readyFor tasks) := by
  have hgrown : Succeeds l l.grown := by
    unfold grown
    split
    · exact l.succeeds_updateGrammar
    · exact succeeds_of_symbols_eq rfl
  exact hgrown.trans (succeeds_of_symbols_eq (l.prepared_of_grown tasks).symbols)

theorem succeeds_adoptAll (l : Learner α) (entries : List (String × Frontier α)) :
    Succeeds l (l.adoptAll entries).value.2 := by
  induction entries generalizing l with
  | nil => exact succeeds_of_symbols_eq rfl
  | cons entry entries ih =>
    refine Succeeds.trans ?_ (ih (l.adopt entry.1 entry.2).value.2)
    rcases l.adopt_cases entry.1 entry.2 with h | ⟨i, s, best, -, hs, -, h⟩
    · rw [h]
      exact succeeds_of_symbols_eq rfl
    · rw [h]
      exact forall₂_set (fun _ => .refl) hs (.single (.consider s best.program))

/-- A merge clears only symbols that are learned. -/
theorem succeeds_merge (l : Learner α) : Succeeds l l.merge.value.2 := by
  have hsettled := settled_mergeFrom 0 l.symbols
  refine List.forall₂_iff_get.2 ⟨hsettled.length.symm, fun i hi hi' => ?_⟩
  have hs : l.symbols[i]? = some l.symbols[i] := List.getElem?_eq_getElem hi
  have hs' : l.merge.value.2.symbols[i]? = some (l.merge.value.2.symbols.get ⟨i, hi'⟩) :=
    List.getElem?_eq_getElem hi'
  by_cases hstays : Stays l.symbols i l.symbols[i]
  · have hkept := hsettled.stays i _ hs hstays
    rw [Option.some.inj (hs'.symm.trans hkept)]
    exact .refl
  · have hcleared := hsettled.cleared i _ hs hstays
    rw [Option.some.inj (hs'.symm.trans hcleared)]
    unfold Stays at hstays
    push Not at hstays
    obtain ⟨_, _, -, -, hdrives⟩ := hstays
    exact .single (.clear hdrives.learnable)

theorem succeeds_learn (l : Learner α) (source : DrawSource) (data : List (List Example))
    (oracle : Oracle α) : Succeeds l (l.learn source data oracle).value.2 := by
  have hstart : Succeeds l (l.start source data).value.2 := by
    have hobserve := l.succeeds_observe source data
    rcases l.start_cases source data with h | h
    · rw [h]
      exact hobserve
    · rw [h]
      exact hobserve.trans (succeeds_readyFor _ _)
  rcases l.learn_cases source data oracle with ⟨-, h⟩ | ⟨q, -, ⟨e, -, h⟩ | ⟨found, -, h⟩⟩
  · exact h ▸ hstart
  · exact h ▸ hstart
  · rw [h]
    unfold takeIn
    refine (hstart.trans (succeeds_adoptAll _ found.solutions.entries)).trans ?_
    exact (succeeds_of_symbols_eq rfl).trans (succeeds_merge _)

end

/-! ## Operations -/

/-- One thing that is done to a learner, with all that it takes. -/
inductive Operation (α : Type) where
  | learn (source : DrawSource) (data : List (List Example)) (oracle : Oracle α)
  | updateGrammar
  | rescoreFrontiers (tasks : List Task)
  | merge
  | extend (arity : Nat)
  | load (model : Option (List (SavedSymbol α)))

/-- Whether the operation leaves the vocabulary as it is, and takes up no saved
model. -/
def Operation.isLearning {α : Type} : Operation α → Bool
  | .extend _ | .load _ => false
  | _ => true

variable {α : Type} [Scalar α]

/-- The learner after one operation. -/
def perform (l : Learner α) : Operation α → Learner α
  | .learn source data oracle => (l.learn source data oracle).value.2
  | .updateGrammar => l.updateGrammar.value.2
  | .rescoreFrontiers tasks => (l.rescoreFrontiers tasks).value
  | .merge => l.merge.value.2
  | .extend arity => (l.extend arity).value.2
  | .load model => (l.load model).2

/-- The learner after several operations, first one first. -/
def after (l : Learner α) (operations : List (Operation α)) : Learner α :=
  operations.foldl perform l

theorem succeeds_perform (l : Learner α) {op : Operation α} (h : op.isLearning = true) :
    Succeeds l (l.perform op) := by
  cases op with
  | learn source data oracle => exact l.succeeds_learn source data oracle
  | updateGrammar => exact l.succeeds_updateGrammar
  | rescoreFrontiers tasks => exact succeeds_of_symbols_eq (l.prepared_rescoreFrontiers tasks).symbols
  | merge => exact l.succeeds_merge
  | extend arity => cases h
  | load model => cases h

theorem succeeds_after (l : Learner α) {operations : List (Operation α)}
    (h : ∀ op ∈ operations, op.isLearning = true) : Succeeds l (l.after operations) := by
  induction operations generalizing l with
  | nil => exact succeeds_of_symbols_eq rfl
  | cons op operations ih =>
    exact (l.succeeds_perform (h op (by simp))).trans (ih _ fun op' hop' => h op' (by simp [hop']))

end Learner

end SymbolInduction
