-- The arguments that an operation is tried on. The shares of a cost come from a
-- stack of compositions that are begun, and the choices from their pools from an
-- odometer. Each of the two comes to an end, and has then gone through all there
-- is, and through nothing twice.
import Mathlib.Data.List.Nodup
import SymbolInduction.Proofs.Enumeration.Indices

namespace SymbolInduction.Enumeration

/-! ## Compositions from a stack -/

/-- What is left to share out halves with each part at least, so the ways to
begin weigh less together than what they go on from. -/
theorem sum_two_pow_countdown {left most : Nat} (h : most ≤ left) :
    ((countdown most).map fun c => 2 ^ (left - c)).sum + 2 ^ (left - most) = 2 ^ left := by
  induction most with
  | zero => simp [countdown]
  | succ most ih =>
    have hhalf : 2 ^ (left - most) = 2 ^ (left - (most + 1)) + 2 ^ (left - (most + 1)) := by
      rw [← Nat.two_mul, ← Nat.pow_succ']
      congr 1
      omega
    have := ih (by omega)
    rw [countdown, List.map_cons, List.sum_cons]
    omega

/-- Finishes the compositions that are begun on a stack, where each comes with
what is left for its other parts. One that lacks a single part takes all that is
left; any other goes back on the stack with each part that may come next. -/
def sharedFrom (parts : Nat) : (stack : List (List Nat × Nat)) → List (List Nat)
  | [] => []
  | (begun, left) :: stack =>
    let slots := parts - begun.length
    if slots = 1 then
      if 1 ≤ left then (begun ++ [left]) :: sharedFrom parts stack else sharedFrom parts stack
    else
      sharedFrom parts
        ((countdown (left - (slots - 1))).map (fun c => (begun ++ [c], left - c)) ++ stack)
termination_by stack => (stack.map fun item => 2 ^ item.2).sum
decreasing_by
  · simp
  · simp
  · have hsum := sum_two_pow_countdown (Nat.sub_le left (parts - begun.length - 1))
    have hpos := Nat.two_pow_pos (left - (left - (parts - begun.length - 1)))
    simp only [List.map_append, List.map_map, List.sum_append, List.map_cons, List.sum_cons,
      Function.comp_def]
    omega

/-- Shares out a total among so many parts, from a stack. -/
def sharedOut (total parts : Nat) : List (List Nat) :=
  if parts = 0 then if total = 0 then [[]] else []
  else sharedFrom parts [([], total)]

/-- A single part is all there is. -/
theorem compositions_one (total : Nat) :
    compositions total 1 = if 1 ≤ total then [[total]] else [] := by
  rw [compositions_succ]
  cases total with
  | zero => rfl
  | succ n =>
    have hrest : (countdown n).flatMap
        (fun c => (compositions (n + 1 - c) 0).map (c :: ·)) = [] := by
      refine List.flatMap_eq_nil_iff.2 fun c hc => ?_
      have hc := (mem_countdown n c).1 hc
      obtain ⟨k, hk⟩ : ∃ k, n + 1 - c = k + 1 := ⟨n - c, by omega⟩
      rw [hk]
      rfl
    rw [Nat.sub_zero, countdown, List.flatMap_cons, hrest, Nat.sub_self]
    rfl

/-- The compositions that go on from one that is begun. -/
def completions (parts : Nat) (item : List Nat × Nat) : List (List Nat) :=
  (compositions item.2 (parts - item.1.length)).map (item.1 ++ ·)

theorem completions_last {parts : Nat} {begun : List Nat} (left : Nat)
    (h : parts - begun.length = 1) :
    completions parts (begun, left) = if 1 ≤ left then [begun ++ [left]] else [] := by
  unfold completions
  rw [h, compositions_one]
  split <;> rfl

theorem completions_next {parts : Nat} {begun : List Nat} (left : Nat)
    (h : begun.length < parts) :
    completions parts (begun, left) =
      ((countdown (left - (parts - begun.length - 1))).map
        fun c => (begun ++ [c], left - c)).flatMap (completions parts) := by
  obtain ⟨slots, hslots⟩ : ∃ slots, parts - begun.length = slots + 1 :=
    ⟨parts - begun.length - 1, by omega⟩
  unfold completions
  rw [hslots, compositions_succ, List.map_flatMap, List.flatMap_map]
  refine List.flatMap_congr fun c _ => ?_
  have hrest : parts - (begun ++ [c]).length = slots := by
    rw [List.length_append, List.length_singleton]
    omega
  dsimp only
  rw [hrest, List.map_map]
  exact List.map_congr_left fun costs _ => by simp

/-- Every composition that is begun on the stack is finished in all ways, the
ones on top first. -/
theorem sharedFrom_eq {parts : Nat} {stack : List (List Nat × Nat)}
    (h : ∀ item ∈ stack, item.1.length < parts) :
    sharedFrom parts stack = stack.flatMap (completions parts) := by
  fun_induction sharedFrom parts stack with
  | case1 => rfl
  | case2 begun left stack slots hlast hleft ih =>
    rw [List.flatMap_cons, completions_last left hlast, if_pos hleft,
      ih fun item hitem => h item (List.mem_cons_of_mem _ hitem)]
    rfl
  | case3 begun left stack slots hlast hleft ih =>
    rw [List.flatMap_cons, completions_last left hlast, if_neg hleft,
      ih fun item hitem => h item (List.mem_cons_of_mem _ hitem)]
    rfl
  | case4 begun left stack slots hmore ih =>
    have hbegun : begun.length < parts := h (begun, left) List.mem_cons_self
    rw [List.flatMap_cons, completions_next left hbegun, ← List.flatMap_append]
    refine ih fun item hitem => ?_
    rcases List.mem_append.1 hitem with hnew | hold
    · obtain ⟨c, -, rfl⟩ := List.mem_map.1 hnew
      rw [List.length_append, List.length_singleton]
      omega
    · exact h item (List.mem_cons_of_mem _ hold)

/-- The stack gives the compositions, in their order. -/
theorem sharedOut_eq (total parts : Nat) : sharedOut total parts = compositions total parts := by
  unfold sharedOut
  split
  · rename_i hnone
    subst hnone
    cases total <;> rfl
  · rename_i hsome
    rw [sharedFrom_eq (by simpa using Nat.pos_of_ne_zero hsome)]
    simp [completions]

theorem nodup_countdown (n : Nat) : (countdown n).Nodup := by
  induction n with
  | zero => exact List.nodup_nil
  | succ n ih =>
    refine List.nodup_cons.2 ⟨fun hmem => ?_, ih⟩
    have := (mem_countdown n (n + 1)).1 hmem
    omega

/-- Compositions with one first part differ in the rest, and others differ in
the first part. -/
theorem nodup_compositions (total parts : Nat) : (compositions total parts).Nodup := by
  induction parts generalizing total with
  | zero => cases total <;> simp [compositions]
  | succ parts ih =>
    rw [compositions_succ, List.nodup_flatMap]
    refine ⟨fun c _ => (ih _).map (List.cons_injective), ?_⟩
    refine (nodup_countdown _).imp fun hne => ?_
    intro costs hc hd
    obtain ⟨_, -, rfl⟩ := List.mem_map.1 hc
    obtain ⟨_, -, hsame⟩ := List.mem_map.1 hd
    exact hne (List.cons.inj hsame).1.symm

/-! ## Choices from an odometer -/

/-- The positions of an odometer, from one on until it stops. -/
inductive Stands (pools : Array (Array Nat)) : Array Nat → List (Array Nat) → Prop
  | last {wheels : Array Nat} (h : turn pools wheels 0 = .ok none) : Stands pools wheels [wheels]
  | next {wheels next : Array Nat} {later : List (Array Nat)}
      (h : turn pools wheels 0 = .ok (some next)) (hlater : Stands pools next later) :
      Stands pools wheels (wheels :: later)

/-- An odometer has one way to go. -/
theorem Stands.unique {pools : Array (Array Nat)} {wheels : Array Nat}
    {stood stood' : List (Array Nat)} (h : Stands pools wheels stood)
    (h' : Stands pools wheels stood') : stood = stood' := by
  induction h generalizing stood' with
  | last hstop =>
    cases h' with
    | last => rfl
    | next hgo => simp [hstop] at hgo
  | next hgo _ ih =>
    cases h' with
    | last hstop => simp [hstop] at hgo
    | next hgo' hlater =>
      rw [hgo] at hgo'
      cases hgo'
      rw [ih hlater]

theorem length_choiceAt (sizes : List Nat) (k : Nat) : (choiceAt sizes k).length = sizes.length := by
  induction sizes generalizing k with
  | nil => rfl
  | cons size sizes ih => rw [choiceAt, List.length_cons, ih, List.length_cons]

/-- From each choice an odometer goes through those that come after it. -/
theorem stands_choiceAt (pools : List (Array Nat)) {k count : Nat}
    (h : k + (count + 1) = countChoices (pools.map (·.size))) :
    Stands pools.toArray (choiceAt (pools.map (·.size)) k).toArray
      (((List.range' k (count + 1)).map (choiceAt (pools.map (·.size)))).map List.toArray) := by
  have hturn : ∀ k, turn pools.toArray (choiceAt (pools.map (·.size)) k).toArray 0 =
      .ok ((nextChoice? (pools.map (·.size)) (choiceAt (pools.map (·.size)) k)).map
        List.toArray) := by
    intro k
    have hsize : (choiceAt (pools.map (·.size)) k).toArray.size = pools.toArray.size := by
      simp [length_choiceAt]
    simpa using turn_eq hsize 0
  induction count generalizing k with
  | zero =>
    refine .last ?_
    rw [hturn, nextChoice?_choiceAt _ (by omega), if_neg (by omega)]
    rfl
  | succ count ih =>
    rw [List.range'_succ, List.map_cons, List.map_cons]
    refine .next ?_ (ih (by omega))
    rw [hturn, nextChoice?_choiceAt _ (by omega), if_pos (by omega)]
    rfl

theorem countChoices_pos {sizes : List Nat} (h : ∀ size ∈ sizes, 0 < size) :
    0 < countChoices sizes := by
  induction sizes with
  | nil => exact Nat.one_pos
  | cons size sizes ih =>
    exact Nat.mul_pos (h size (by simp)) (ih fun size hsize => h size (by simp [hsize]))

/-- An odometer on pools that are not empty goes through the choices and stops. -/
theorem stands_firstChoice_iff {pools : List (Array Nat)} (h : ∀ pool ∈ pools, 0 < pool.size)
    (stood : List (Array Nat)) :
    Stands pools.toArray (firstChoice (pools.map (·.size))).toArray stood ↔
      stood = (choices (pools.map (·.size))).map List.toArray := by
  have hpos : 0 < countChoices (pools.map (·.size)) := by
    refine countChoices_pos fun size hsize => ?_
    obtain ⟨pool, hpool, rfl⟩ := List.mem_map.1 hsize
    exact h pool hpool
  obtain ⟨count, hcount⟩ := Nat.exists_eq_add_one.2 hpos
  have hstands := stands_choiceAt pools (k := 0) ((Nat.zero_add _).trans hcount.symm)
  rw [choiceAt_zero, ← hcount, ← List.range_eq_range'] at hstands
  exact ⟨fun h => h.unique hstands, fun h => h ▸ hstands⟩

theorem choiceAt_inj {sizes : List Nat} {k l : Nat} (hk : k < countChoices sizes)
    (hl : l < countChoices sizes) (h : choiceAt sizes k = choiceAt sizes l) : k = l := by
  induction sizes generalizing k l with
  | nil =>
    rw [countChoices] at hk hl
    omega
  | cons size sizes ih =>
    rw [countChoices] at hk hl
    obtain ⟨hdigit, hrest⟩ := List.cons.inj h
    have hquotient := ih (Nat.div_lt_of_lt_mul hk) (Nat.div_lt_of_lt_mul hl) hrest
    rw [← Nat.div_add_mod k size, ← Nat.div_add_mod l size, hdigit, hquotient]

theorem nodup_choices (sizes : List Nat) : (choices sizes).Nodup := by
  refine List.Nodup.map_on ?_ List.nodup_range
  intro k hk l hl h
  exact choiceAt_inj (List.mem_range.1 hk) (List.mem_range.1 hl) h

/-- Where no pool is empty, an operation is offered on one choice after another. -/
theorem offerCosts_eq {α : Type} [Scalar α] {run : Run α} {costs : List Nat}
    {pools : List (Array Nat)} (hpools : costs.mapM (entry run.bank.byCost) = .ok pools)
    (h : ∀ pool ∈ pools, 0 < pool.size) (scope : Scope) (op : Component) (cost : Nat) :
    Run.offerCosts scope op cost run costs =
      (choices (pools.map (·.size))).foldlM
        (fun run choice => Run.offerChoice scope op cost pools choice run) run := by
  have hfull : ¬pools.any (·.isEmpty) = true := by
    rw [List.any_eq_true]
    rintro ⟨pool, hpool, hempty⟩
    have := h pool hpool
    rw [Array.isEmpty_iff.1 hempty] at this
    exact Nat.lt_irrefl 0 this
  unfold Run.offerCosts
  rw [hpools]
  dsimp only
  rw [if_neg hfull, visitChoices_eq]

/-! ## All there is, once -/

/-- The stack that shares out a total gives, in their order, the compositions: each
list of so many positive numbers with that sum once, and nothing else. And where no
pool is empty, the odometer goes through a list of choices and stops. The list has
each choice of one index for each pool once, and nothing else; and an operation is
offered on one choice of it after another, unless the search is over before. -/
theorem every_choice_of_arguments_is_tried_once :
    (∀ total parts : Nat, sharedOut total parts = compositions total parts ∧
      (compositions total parts).Nodup ∧ ∀ costs, costs ∈ compositions total parts ↔
        costs.length = parts ∧ costs.sum = total ∧ ∀ c ∈ costs, 0 < c) ∧
    ∀ pools : List (Array Nat), (∀ pool ∈ pools, 0 < pool.size) →
      let visited := choices (pools.map (·.size))
      (∀ stood, Stands pools.toArray (firstChoice (pools.map (·.size))).toArray stood ↔
        stood = visited.map List.toArray) ∧
      visited.Nodup ∧ (∀ choice, choice ∈ visited ↔ IsChoice (pools.map (·.size)) choice) ∧
      ∀ {α : Type} [Scalar α] (scope : Scope) (op : Component) (cost : Nat) (run : Run α)
        (costs : List Nat), costs.mapM (entry run.bank.byCost) = .ok pools →
          Run.offerCosts scope op cost run costs =
            visited.foldlM (fun run choice => Run.offerChoice scope op cost pools choice run) run := by
  refine ⟨fun total parts => ?_, fun pools hfull => ?_⟩
  · exact ⟨sharedOut_eq total parts, nodup_compositions total parts, mem_compositions total parts⟩
  · refine ⟨stands_firstChoice_iff hfull, nodup_choices _, mem_choices _, ?_⟩
    exact fun scope op cost run costs hpools => offerCosts_eq hpools hfull scope op cost

/-- A run that stored two terms of cost one and a term of cost two. -/
def threeStored : Run Float where
  bank :=
    { environments := [[.int 1]]
      limits := successorScope.limits
      stored := #[⟨.var 0, 1, [.int 1]⟩, ⟨.literal 5, 1, [.int 5]⟩,
        ⟨.app (.prim .incr) (.var 0), 2, [.int 2]⟩]
      byCost := #[#[], #[0, 1], #[2]] }
  readings := 0

/-- Of two arguments, the first one turns. -/
theorem the_first_argument_turns :
    (∀ pool ∈ [#[0, 1], #[2]], 0 < pool.size) ∧
    [1, 2].mapM (entry threeStored.bank.byCost) = .ok [#[0, 1], #[2]] ∧
    Stands #[#[0, 1], #[2]] #[0, 0] [#[0, 0], #[1, 0]] ∧
    Run.offerCosts successorScope ⟨.prim .add⟩ 4 threeStored [1, 2] =
      [[0, 0], [1, 0]].foldlM
        (fun run choice => Run.offerChoice successorScope ⟨.prim .add⟩ 4 [#[0, 1], #[2]] choice run)
        threeStored := by
  have hfull : ∀ pool ∈ [#[0, 1], #[2]], 0 < pool.size := by decide
  have hpools : [1, 2].mapM (entry threeStored.bank.byCost) = .ok [#[0, 1], #[2]] := rfl
  obtain ⟨hstands, -, -, hoffer⟩ := every_choice_of_arguments_is_tried_once.2 _ hfull
  exact ⟨hfull, hpools, (hstands _).2 (by decide),
    hoffer successorScope ⟨.prim .add⟩ 4 threeStored [1, 2] hpools⟩

end SymbolInduction.Enumeration
