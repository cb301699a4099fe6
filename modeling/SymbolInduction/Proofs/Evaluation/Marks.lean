-- A program makes no mark of its own: where no mark of an absent argument
-- comes in, none comes out, not even within a function.
import SymbolInduction.Proofs.Evaluation.Agreement

namespace SymbolInduction

/-- No mark of an absent argument stands anywhere in the datum. -/
inductive Datum.Unmarked : Datum → Prop
  | int (n : Int64) : Unmarked (.int n)
  | bool (b : Bool) : Unmarked (.bool b)
  | list (ns : List Int64) : Unmarked (.list ns)
  | closure (body : Term) {env : List Datum} : (∀ d ∈ env, Unmarked d) → Unmarked (.closure body env)
  | waiting (p : Primitive) {given : List Datum} :
      (∀ d ∈ given, Unmarked d) → Unmarked (.waiting p given)
  | recur {f : Datum} : Unmarked f → Unmarked (.recur f)

namespace Metered

/-- Every value that the first computation can end with compares with some
value. The second computation is there for its type only. -/
def Yields {α β : Type} (R : α → β → Prop) (x : Metered α) (_ : Metered β) : Prop :=
  ∀ m a n, x m = .ok a n → ∃ b, R a b

theorem yields_bind {α β γ δ : Type} {R : α → β → Prop} {S : γ → δ → Prop} {x : Metered α}
    {x' : Metered β} {f : α → Metered γ} {f' : β → Metered δ} (hx : Yields R x x')
    (hf : ∀ a b, R a b → Yields S (f a) (f' b)) : Yields S (x >>= f) (x' >>= f') := by
  intro m c n h
  obtain ⟨a, k, ha, hc⟩ := bind_eq_ok h
  obtain ⟨b, hab⟩ := hx m a k ha
  exact hf a b hab k c n hc

theorem yields_nested {α β : Type} {R : α → β → Prop} {x : Metered α} {x' : Metered β}
    (limits : Limits) (h : Yields R x x') : Yields R (nested limits x) (nested limits x') := by
  intro m a n ha
  obtain ⟨-, k, hr, -⟩ := (nested_eq_ok_iff ..).1 ha
  exact h _ a k hr

/-- What values compare with goes through all that evaluations are made of. -/
theorem comparison_yields (limits : Limits) : Comparison limits limits Yields where
  value h := by
    rintro m _ n ⟨⟩
    exact ⟨_, h⟩
  failure _ e := by
    rintro m a n ⟨⟩
  bind := yields_bind
  tick _ a _ _ := ⟨a, rfl⟩
  nested := yields_nested limits
  refused _ _ m a n h := absurd h (refuseStep_ne_ok limits m n a)

end Metered

namespace Evaluation

open Metered Datum

theorem unmarked_of_isPlain {d : Datum} (h : IsPlain d) : d.Unmarked := by
  cases d with
  | int n => exact .int n
  | bool b => exact .bool b
  | list ns => exact .list ns
  | _ => cases h

/-- A datum without marks compares with itself. -/
def SameUnmarked (d d' : Datum) : Prop := d.Unmarked ∧ d = d'

theorem forall₂_sameUnmarked_iff {ds ds' : List Datum} :
    List.Forall₂ SameUnmarked ds ds' ↔ (∀ d ∈ ds, d.Unmarked) ∧ ds = ds' := by
  unfold SameUnmarked
  rw [List.forall₂_and_left, List.forall₂_eq_eq_eq]

theorem congruence_sameUnmarked : StructuralCongruence SameUnmarked where
  plain h := ⟨unmarked_of_isPlain h, rfl⟩
  same h := Or.inl h.2
  waiting p _ _ h := by
    obtain ⟨hunmarked, rfl⟩ := forall₂_sameUnmarked_iff.1 h
    exact ⟨.waiting p hunmarked, rfl⟩
  recur h := ⟨.recur h.1, congrArg Datum.recur h.2⟩
  closure body _ _ h := by
    obtain ⟨hunmarked, rfl⟩ := forall₂_sameUnmarked_iff.1 h
    exact ⟨.closure body hunmarked, rfl⟩
  shape := by
    rintro d _ ⟨hd, rfl⟩
    cases hd with
    | closure body henv =>
      exact .closure fun hx => ⟨rfl, .cons hx (forall₂_sameUnmarked_iff.2 ⟨henv, rfl⟩)⟩
    | waiting p hgiven => exact .waiting p (forall₂_sameUnmarked_iff.2 ⟨hgiven, rfl⟩)
    | recur hf => exact .recur ⟨hf, rfl⟩
    | _ => exact .data rfl rfl

/-- In an environment without marks the value of a term has none. -/
theorem unmarked_of_value? {limits : Limits} {env : List Datum} (henv : ∀ d ∈ env, d.Unmarked)
    {t : Term} {d : Datum} (h : value? limits env t = some d) : d.Unmarked := by
  rw [value?_eq] at h
  have hyields := ((comparison_yields limits).within congruence_sameUnmarked
    (Nat.le_refl limits.steps)).1 t (forall₂_sameUnmarked_iff.2 ⟨henv, rfl⟩)
  cases hr : evalWithin limits limits.steps t env ({} : Meter) with
  | ok a m =>
    rw [hr] at h
    cases h
    obtain ⟨d', hd, -⟩ := hyields {} d m hr
    exact hd
  | error e m =>
    rw [hr] at h
    cases h

end Evaluation

end SymbolInduction
