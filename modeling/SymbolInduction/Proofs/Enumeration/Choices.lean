-- What the loops of a search go through: all ways to share out a cost, and all
-- choices of one argument from each pool.
import Mathlib.Algebra.Ring.Nat
import Mathlib.Data.List.Forall2
import SymbolInduction.Enumeration.Compositions

namespace SymbolInduction.Enumeration

/-! ## Compositions -/

theorem mem_countdown (n c : Nat) : c ∈ countdown n ↔ 0 < c ∧ c ≤ n := by
  induction n with
  | zero =>
    simp only [countdown, List.not_mem_nil, false_iff]
    omega
  | succ n ih =>
    rw [countdown, List.mem_cons, ih]
    omega

theorem compositions_succ (total parts : Nat) :
    compositions total (parts + 1) =
      (countdown (total - parts)).flatMap fun c => (compositions (total - c) parts).map (c :: ·) := by
  cases total <;> rfl

/-- Positive numbers sum to their count at least. -/
theorem length_le_sum {costs : List Nat} (h : ∀ c ∈ costs, 0 < c) : costs.length ≤ costs.sum := by
  induction costs with
  | nil => simp
  | cons c costs ih =>
    have hc := h c (by simp)
    have := ih fun d hd => h d (by simp [hd])
    simp only [List.length_cons, List.sum_cons]
    omega

/-- The compositions are exactly the lists of so many positive numbers with
the given sum. -/
theorem mem_compositions (total parts : Nat) (costs : List Nat) :
    costs ∈ compositions total parts ↔
      costs.length = parts ∧ costs.sum = total ∧ ∀ c ∈ costs, 0 < c := by
  induction parts generalizing total costs with
  | zero =>
    cases total with
    | zero => cases costs <;> simp [compositions]
    | succ total => cases costs <;> simp [compositions]
  | succ parts ih =>
    rw [compositions_succ, List.mem_flatMap]
    constructor
    · rintro ⟨c, hc, hcosts⟩
      rw [List.mem_map] at hcosts
      obtain ⟨rest, hrest, rfl⟩ := hcosts
      obtain ⟨hlen, hsum, hpos⟩ := (ih _ _).1 hrest
      have hc := (mem_countdown _ _).1 hc
      refine ⟨by simp [hlen], ?_, ?_⟩
      · rw [List.sum_cons]
        omega
      · intro d hd
        rcases List.mem_cons.1 hd with rfl | hd
        · exact hc.1
        · exact hpos d hd
    · rintro ⟨hlen, hsum, hpos⟩
      cases costs with
      | nil => cases hlen
      | cons c rest =>
        rw [List.sum_cons] at hsum
        rw [List.length_cons] at hlen
        have hc := hpos c (by simp)
        have hrest : ∀ d ∈ rest, 0 < d := fun d hd => hpos d (by simp [hd])
        have hroom := length_le_sum hrest
        refine ⟨c, (mem_countdown _ _).2 ⟨hc, by omega⟩, List.mem_map_of_mem ?_⟩
        exact (ih _ _).2 ⟨by omega, by omega, hrest⟩

/-! ## Choices -/

theorem exists_of_mem_right {β γ : Type} {R : β → γ → Prop} {xs : List β} {ys : List γ}
    (h : List.Forall₂ R xs ys) {y : γ} (hy : y ∈ ys) : ∃ x ∈ xs, R x y := by
  induction h with
  | nil => cases hy
  | @cons x y' xs ys hxy _ ih =>
    rcases List.mem_cons.1 hy with rfl | hy
    · exact ⟨x, by simp, hxy⟩
    · obtain ⟨x', hx', hR⟩ := ih hy
      exact ⟨x', by simp [hx'], hR⟩

theorem exists_forall₂ {β γ : Type} {R : β → γ → Prop} {xs : List β} (h : ∀ x ∈ xs, ∃ y, R x y) :
    ∃ ys, List.Forall₂ R xs ys := by
  induction xs with
  | nil => exact ⟨[], .nil⟩
  | cons x xs ih =>
    obtain ⟨y, hy⟩ := h x (by simp)
    obtain ⟨ys, hys⟩ := ih fun z hz => h z (by simp [hz])
    exact ⟨y :: ys, .cons hy hys⟩

/-- A choice has one index for each pool, within that pool. -/
def IsChoice (sizes choice : List Nat) : Prop := List.Forall₂ (· < ·) choice sizes

/-- The choice that comes after `k` others: the digits of `k`, where each
size is the base of its digit and the first digit counts least. -/
def choiceAt : (sizes : List Nat) → Nat → List Nat
  | [], _ => []
  | size :: sizes, k => k % size :: choiceAt sizes (k / size)

theorem choiceAt_zero (sizes : List Nat) : choiceAt sizes 0 = firstChoice sizes := by
  induction sizes with
  | nil => rfl
  | cons size sizes ih =>
    rw [choiceAt, Nat.zero_mod, Nat.zero_div, ih]
    rfl

theorem choiceAt_digits (sizes : List Nat) {size i : Nat} (hi : i < size) (q : Nat) :
    choiceAt (size :: sizes) (size * q + i) = i :: choiceAt sizes q := by
  rw [choiceAt, Nat.mul_add_mod, Nat.mod_eq_of_lt hi, Nat.mul_add_div (by omega),
    Nat.div_eq_of_lt hi, Nat.add_zero]

/-- Counting one further is going on to the next choice; there is none after
the last choice. -/
theorem nextChoice?_choiceAt (sizes : List Nat) {k : Nat} (hk : k < countChoices sizes) :
    nextChoice? sizes (choiceAt sizes k) =
      if k + 1 < countChoices sizes then some (choiceAt sizes (k + 1)) else none := by
  induction sizes generalizing k with
  | nil =>
    rw [if_neg (by simp [countChoices])]
    rfl
  | cons size sizes ih =>
    rw [countChoices] at hk ⊢
    have hsize : 0 < size := Nat.pos_of_mul_pos_right (Nat.zero_lt_of_lt hk)
    -- `k` is taken apart into its last digit `i` and the number `q` before it
    obtain ⟨i, q, hi, rfl⟩ : ∃ i q, i < size ∧ k = size * q + i :=
      ⟨k % size, k / size, Nat.mod_lt _ hsize, (Nat.div_add_mod k size).symm⟩
    have hq : q < countChoices sizes := by
      by_contra hq
      have := Nat.mul_le_mul_left size (Nat.le_of_not_lt hq)
      omega
    have hnext := Nat.mul_le_mul_left size (Nat.succ_le_of_lt hq)
    rw [Nat.mul_succ] at hnext
    rw [choiceAt_digits sizes hi, nextChoice?, ih hq]
    by_cases hlast : i + 1 < size
    · rw [if_pos hlast, if_pos (by omega), Nat.add_assoc, choiceAt_digits sizes hlast]
    · rw [if_neg hlast]
      have hturn : size * q + i + 1 = size * (q + 1) + 0 := by
        rw [Nat.mul_succ]
        omega
      rw [hturn, choiceAt_digits sizes hsize]
      by_cases hmore : q + 1 < countChoices sizes
      · have := Nat.mul_lt_mul_of_pos_left hmore hsize
        rw [if_pos hmore, if_pos (by omega)]
        rfl
      · have := Nat.mul_le_mul_left size (Nat.le_of_not_lt hmore)
        rw [if_neg hmore, if_neg (by omega)]
        rfl

theorem visitFrom_choiceAt {σ ε : Type} (sizes : List Nat) (visit : List Nat → σ → Except ε σ)
    (count k : Nat) (h : k + count = countChoices sizes) (s : σ) :
    visitFrom sizes visit count (choiceAt sizes k) s =
      (List.range' k count).foldlM (fun s k => visit (choiceAt sizes k) s) s := by
  induction count generalizing k s with
  | zero => rfl
  | succ count ih =>
    rw [visitFrom, List.range'_succ, List.foldlM_cons, nextChoice?_choiceAt sizes (by omega)]
    congr 1
    funext s
    by_cases hmore : k + 1 < countChoices sizes
    · rw [if_pos hmore]
      exact ih (k + 1) (by omega) s
    · rw [if_neg hmore]
      obtain rfl : count = 0 := by omega
      rfl

/-- The choices from pools with the given sizes, in the order in which they
are visited. -/
def choices (sizes : List Nat) : List (List Nat) := (List.range (countChoices sizes)).map (choiceAt sizes)

/-- Going from each choice to the next one goes through all choices. -/
theorem visitChoices_eq {σ ε : Type} (sizes : List Nat) (visit : List Nat → σ → Except ε σ) (s : σ) :
    visitChoices sizes visit s = (choices sizes).foldlM (fun s choice => visit choice s) s := by
  unfold visitChoices choices
  rw [← choiceAt_zero, visitFrom_choiceAt sizes visit _ 0 (by omega), List.foldlM_map,
    List.range_eq_range']

theorem isChoice_choiceAt (sizes : List Nat) {k : Nat} (hk : k < countChoices sizes) :
    IsChoice sizes (choiceAt sizes k) := by
  induction sizes generalizing k with
  | nil => exact .nil
  | cons size sizes ih =>
    rw [countChoices] at hk
    have hsize : 0 < size := Nat.pos_of_mul_pos_right (Nat.zero_lt_of_lt hk)
    exact .cons (Nat.mod_lt k hsize) (ih (Nat.div_lt_of_lt_mul hk))

theorem exists_choiceAt {sizes choice : List Nat} (h : IsChoice sizes choice) :
    ∃ k < countChoices sizes, choiceAt sizes k = choice := by
  induction h with
  | nil => exact ⟨0, Nat.one_pos, rfl⟩
  | @cons i size choice sizes hi _ ih =>
    obtain ⟨q, hq, rfl⟩ := ih
    refine ⟨size * q + i, ?_, choiceAt_digits sizes hi q⟩
    have := Nat.mul_le_mul_left size (Nat.succ_le_of_lt hq)
    rw [Nat.mul_succ] at this
    rw [countChoices]
    omega

/-- All choices are visited, and nothing else. -/
theorem mem_choices (sizes choice : List Nat) : choice ∈ choices sizes ↔ IsChoice sizes choice := by
  unfold choices
  rw [List.mem_map]
  constructor
  · rintro ⟨k, hk, rfl⟩
    exact isChoice_choiceAt sizes (List.mem_range.1 hk)
  · intro h
    obtain ⟨k, hk, rfl⟩ := exists_choiceAt h
    exact ⟨k, List.mem_range.2 hk, rfl⟩

end SymbolInduction.Enumeration
