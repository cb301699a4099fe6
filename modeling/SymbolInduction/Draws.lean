-- Chance: what a random source may decide. Every rule that draws is given its
-- draws, so a law about them holds for every source that keeps these promises.
import SymbolInduction.Panic
import SymbolInduction.Scalar
import SymbolInduction.Value

namespace SymbolInduction

/-! ## Examples for a task -/

/-- One way in which all draws may turn out. -/
structure Draws where
  /-- Some of the examples, so many as are asked for where there are so many. -/
  choose : Nat → List Example → List Example
  /-- The examples in another order. -/
  shuffle : List Example → List Example
  choose_perm : ∀ n es, ∃ rest, (choose n es ++ rest).Perm es
  choose_length : ∀ n es, (choose n es).length = min n es.length
  shuffle_perm : ∀ es, (shuffle es).Perm es

namespace Draws

/-- The draws that always take what comes first. -/
def first : Draws where
  choose n es := es.take n
  shuffle es := es
  choose_perm n es := ⟨es.drop n, by simp⟩
  choose_length n es := List.length_take
  shuffle_perm es := .refl _

instance : Inhabited Draws := ⟨first⟩

end Draws

/-- The chances of a learner: what is drawn under a seed, in a round, for the
symbol at a position. -/
abbrev DrawSource := (seed round position : Nat) → Draws

/-! ## One of several by weight -/

section

variable {α : Type} [Scalar α]

/-- Weights that cannot be drawn by: there are none, one of them is below zero or
is no number, or they add up to nothing. -/
def Unweighable (ws : List α) : Prop :=
  ws = [] ∨ (∃ w ∈ ws, Scalar.le Scalar.zero w = false) ∨
    Scalar.eq (Scalar.sum ws) Scalar.zero = true

instance (ws : List α) : Decidable (Unweighable ws) :=
  decidable_of_iff (ws.isEmpty = true ∨ (∃ w ∈ ws, Scalar.le Scalar.zero w = false) ∨
    Scalar.eq (Scalar.sum ws) Scalar.zero = true) (by simp [Unweighable])

end

/-- One way in which a draw by weight may turn out. Where the weights can be drawn
by and add up to a number, it is the place of one of them, and of one above zero
where there is one. Where they add up to more than any number, nothing is
promised: the program may stop. -/
structure WeightedDraw (α : Type) [Scalar α] where
  draw : List α → Except Panic (Option Nat)
  draw_of_unweighable : ∀ ws, Unweighable ws → draw ws = .ok none
  draw_of_finite : ∀ ws, ¬Unweighable ws → Scalar.isFinite (Scalar.sum ws) = true →
    ∃ i w, draw ws = .ok (some i) ∧ ws[i]? = some w ∧
      ((∃ v ∈ ws, Scalar.lt Scalar.zero v = true) → Scalar.lt Scalar.zero w = true)

namespace WeightedDraw

variable {α : Type} [Scalar α]

/-- A place, where its weight is above zero, and else the first one with such a
weight. -/
def placeNear (place : Nat) (ws : List α) : Nat :=
  if ws[place]?.any (Scalar.lt Scalar.zero) then place
  else (ws.findIdx? (Scalar.lt Scalar.zero)).getD 0

theorem placeNear_spec (place : Nat) {ws : List α} (h : ws ≠ []) :
    ∃ w, ws[placeNear place ws]? = some w ∧
      ((∃ v ∈ ws, Scalar.lt Scalar.zero v = true) → Scalar.lt Scalar.zero w = true) := by
  unfold placeNear
  split
  · rename_i hplace
    obtain ⟨w, hw, habove⟩ := (Option.any_eq_true _ _).1 hplace
    exact ⟨w, hw, fun _ => habove⟩
  · cases hfirst : ws.findIdx? (Scalar.lt Scalar.zero) with
    | some i =>
      obtain ⟨hi, habove, -⟩ := List.findIdx?_eq_some_iff_getElem.1 hfirst
      exact ⟨ws[i], List.getElem?_eq_getElem hi, fun _ => habove⟩
    | none =>
      have hnone := List.findIdx?_eq_none_iff.1 hfirst
      refine ⟨ws.head h, List.head?_eq_getElem? ▸ List.head?_eq_some_head h, ?_⟩
      rintro ⟨v, hv, habove⟩
      cases habove.symm.trans (hnone v hv)

/-- The draws that take a certain place wherever they can, and stop the program
where they must. -/
def preferring (place : Nat) : WeightedDraw α where
  draw ws :=
    if Unweighable ws then .ok none
    else if Scalar.isFinite (Scalar.sum ws) then .ok (some (placeNear place ws))
    else .error .weightOverflow
  draw_of_unweighable ws h := if_pos h
  draw_of_finite ws h hfinite := by
    obtain ⟨w, hw, habove⟩ := placeNear_spec place (mt Or.inl h)
    exact ⟨_, w, by rw [if_neg h, if_pos hfinite], hw, habove⟩

instance : Inhabited (WeightedDraw α) := ⟨preferring 0⟩

end WeightedDraw

end SymbolInduction
