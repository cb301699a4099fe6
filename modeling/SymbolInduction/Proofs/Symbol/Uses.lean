-- A symbol in use. What it gives at arguments that were observed agrees with what
-- was learned: a trusted program gives the outputs that it was found to reproduce,
-- and otherwise an output comes that was observed and has not lost its weight. The
-- marks of absent arguments are left out first, and nothing is observed of what is
-- left then.
import SymbolInduction.Proofs.Symbol.Failures

namespace SymbolInduction

/-! ## Drawing by weight -/

/-- Weights of which none is below zero and one is above it can be drawn by. -/
theorem not_unweighable {ws : List Float} (hall : ∀ w ∈ ws, Scalar.le Scalar.zero w = true)
    (hsome : ∃ w ∈ ws, Scalar.lt Scalar.zero w = true) : ¬Unweighable ws := by
  have htotal := (Doubles.zero_lt_iff _).1 (Doubles.zero_lt_sum hall hsome)
  rintro (rfl | ⟨w, hw, hbelow⟩ | hzero)
  · obtain ⟨w, hw, -⟩ := hsome
    cases hw
  · cases hbelow.symm.trans (hall w hw)
  · cases hzero.symm.trans (Doubles.eq_zero_of_above htotal)

section

variable {α : Type} [Scalar α] (draw : WeightedDraw α) {t : Tally α}

theorem Symbol.drawOutput_of_unweighable (h : Unweighable (t.entries.map (·.2))) :
    Symbol.drawOutput draw t = .ok .missing := by
  unfold Symbol.drawOutput
  rw [draw.draw_of_unweighable _ h]
  rfl

/-- Where the weights can be drawn by and add up to a number, an output comes, and one
with a weight above zero where there is one. -/
theorem Symbol.drawOutput_of_finite (h : ¬Unweighable (t.entries.map (·.2)))
    (hfinite : Scalar.isFinite t.total = true) :
    ∃ e ∈ t.entries, Symbol.drawOutput draw t = .ok e.1 ∧
      ((∃ v ∈ t.entries.map (·.2), Scalar.lt Scalar.zero v = true) →
        Scalar.lt Scalar.zero e.2 = true) := by
  obtain ⟨i, w, hdraw, hw, habove⟩ := draw.draw_of_finite _ h hfinite
  rw [List.getElem?_map] at hw
  obtain ⟨e, he, rfl⟩ := Option.map_eq_some_iff.1 hw
  refine ⟨e, List.mem_of_getElem? he, ?_, habove⟩
  have hentry : entry (t.entries.map (·.1)).toArray i = .ok e.1 := by
    rw [entry_eq_ok_iff, List.getElem?_toArray, List.getElem?_map, he, Option.map_some]
  unfold Symbol.drawOutput
  rw [hdraw]
  exact hentry

end

/-- What has a weight was observed. -/
theorem Evidence.get?_of_weight {ev : Evidence Float} {xs : Inputs} {y : Value}
    (h : Scalar.lt Scalar.zero (ev.weight xs y) = true) :
    ∃ t, ev.get? xs = some t ∧ (y, ev.weight xs y) ∈ t.entries := by
  unfold weight at h ⊢
  cases hxs : ev.get? xs with
  | none =>
    rw [hxs] at h
    exact absurd (Doubles.zero_lt_zero.symm.trans h) Bool.false_ne_true
  | some t =>
    rw [hxs] at h
    refine ⟨t, rfl, ?_⟩
    cases hy : t.get? y with
    | none =>
      rw [Option.bind_some, hy] at h
      exact absurd (Doubles.zero_lt_zero.symm.trans h) Bool.false_ne_true
    | some w => exact Table.get?_eq_some_iff.1 (by rw [Option.bind_some, hy]; rfl)

theorem Evidence.weight_of_mem {ev : Evidence Float} {xs : Inputs} {t : Tally Float} {y : Value}
    {w : Float} (ht : ev.get? xs = some t) (hw : (y, w) ∈ t.entries) : ev.weight xs y = w := by
  unfold weight
  rw [ht, Option.bind_some, Table.get?_eq_some_iff.2 hw]
  rfl

theorem Evidence.zero_le_weight {ev : Evidence Float}
    (h : ∀ e ∈ ev.entries, ∀ o ∈ e.2.entries, Scalar.le Scalar.zero o.2 = true) (xs : Inputs)
    (y : Value) : Scalar.le Scalar.zero (ev.weight xs y) = true := by
  unfold weight
  cases hxs : ev.get? xs with
  | none => exact Doubles.zero_le_zero
  | some t =>
    rw [Option.bind_some]
    cases hy : t.get? y with
    | none => exact Doubles.zero_le_zero
    | some w =>
      exact h (xs, t) (Table.get?_eq_some_iff.1 hxs) (y, w) (Table.get?_eq_some_iff.1 hy)

namespace Symbol

/-! ## Absent arguments -/

theorem present_eq_self {xs : Inputs} (h : .empty ∉ xs) : present xs = xs :=
  List.filter_eq_self.2 fun _ hx => decide_eq_true fun heq => h (heq ▸ hx)

theorem present_present (xs : Inputs) : present (present xs) = present xs :=
  present_eq_self fun h => by simpa using (List.mem_filter.1 h).2

theorem length_present_lt {xs : Inputs} (h : .empty ∈ xs) : (present xs).length < xs.length :=
  List.length_filter_lt_length_iff_exists.2 ⟨.empty, h, by decide⟩

variable {α : Type} [Scalar α]

theorem apply_present (s : Symbol α) (draw : WeightedDraw α) (xs : Inputs) :
    s.apply draw (present xs) = s.apply draw xs := by
  unfold apply
  rw [present_present]

/-! ## Outputs -/

/-- The weights of the outputs that were observed for some arguments. -/
def weightsAt (s : Symbol α) (xs : Inputs) : List α :=
  ((s.evidence.get? xs).map fun t => t.entries.map (·.2)).getD []

/-- A trusted program gives its output. -/
theorem apply_of_trusted {s : Symbol α} (h : s.isTrusted = true) (draw : WeightedDraw α)
    (xs : Inputs) : (s.apply draw xs).value.1 = .ok (s.explanation.output (present xs)) := by
  unfold apply
  rw [if_pos h]
  simp

/-- Otherwise an output is drawn, where some were observed. -/
theorem apply_of_not_trusted {s : Symbol α} (h : s.isTrusted = false) (draw : WeightedDraw α)
    (xs : Inputs) :
    (s.apply draw xs).value.1 =
      match s.evidence.get? (present xs) with
      | none => .ok .missing
      | some t => drawOutput draw t := by
  unfold apply
  rw [if_neg (by rw [h]; exact Bool.false_ne_true)]
  cases s.evidence.get? (present xs) <;> rfl

/-- Used at arguments of which none is absent, a symbol agrees with what it learned:
a trusted program gives the output of an example that it has right, and otherwise an
output comes that has a weight, where one of them has, none is below zero, and together
they add up to a number. Absent arguments are left out; and as what is left are too few,
nothing was observed of them. -/
theorem use_agrees_with_what_was_learned (idx arity : Nat) (settings : Settings Float)
    (changes : List Change) (draw : WeightedDraw Float) (xs : Inputs) :
    let s := (fresh idx arity settings).after changes
    (.empty ∉ xs →
        (s.isTrusted = true →
          ∀ e ∈ s.rightExamples, e.inputs = xs → (s.apply draw xs).value.1 = .ok e.output) ∧
        (s.isTrusted = false → (∀ y, Scalar.le Scalar.zero (s.evidence.weight xs y) = true) →
          Scalar.isFinite (Scalar.sum (s.weightsAt xs)) = true →
          (∃ y, Scalar.lt Scalar.zero (s.evidence.weight xs y) = true) →
            ∃ y, (s.apply draw xs).value.1 = .ok y ∧
              Scalar.lt Scalar.zero (s.evidence.weight xs y) = true)) ∧
      s.apply draw xs = s.apply draw (present xs) ∧
      (.empty ∈ xs → xs.length = arity → s.isTrusted = false →
        (s.apply draw xs).value.1 = .ok .missing) := by
  intro s
  have h : s.Learned arity settings := learned_after idx arity settings changes
  refine ⟨fun hpresent => ⟨?_, ?_⟩, (s.apply_present draw xs).symm, ?_⟩
  · rintro htrusted e he rfl
    rw [apply_of_trusted htrusted, present_eq_self hpresent, ((mem_rightExamples h.scored).1 he).2]
  · rintro hfalse hall hfinite ⟨y, hy⟩
    obtain ⟨t, ht, hmem⟩ := Evidence.get?_of_weight hy
    have hweighable : ¬Unweighable (t.entries.map (·.2)) := by
      refine not_unweighable ?_ ⟨_, List.mem_map_of_mem hmem, hy⟩
      intro w hw
      obtain ⟨e, he, rfl⟩ := List.mem_map.1 hw
      exact Evidence.weight_of_mem ht he ▸ hall e.1
    have htotal : Scalar.isFinite t.total = true := by
      rw [weightsAt, ht] at hfinite
      exact hfinite
    obtain ⟨e, he, hdrawn, habove⟩ := drawOutput_of_finite draw hweighable htotal
    refine ⟨e.1, ?_, ?_⟩
    · rw [apply_of_not_trusted hfalse, present_eq_self hpresent, ht]
      exact hdrawn
    · rw [Evidence.weight_of_mem ht he]
      exact habove ⟨_, List.mem_map_of_mem hmem, hy⟩
  · intro habsent hlen hfalse
    -- the evidence is of lists of as many arguments as the symbol takes
    have hnone : s.evidence.get? (present xs) = none := by
      by_contra hsome
      obtain ⟨t, ht⟩ := Option.ne_none_iff_exists'.1 hsome
      have hfits := h.fits _ (Table.get?_eq_some_iff.1 ht)
      have hless := length_present_lt habsent
      rw [h.arity] at hfits
      dsimp only at hfits
      omega
    rw [apply_of_not_trusted hfalse, hnone]

set_option maxRecDepth 1000 in
/-- Of two outputs one is drawn; and without a penalty the identity is trusted for
the one example that it has right. -/
theorem what_is_drawn_and_what_is_trusted :
    let drawn := (fresh 0 1 (Settings.default : Settings Float)).after
      [.observe [⟨[.int 1], .int 3⟩, ⟨[.int 1], .int 5⟩]]
    let trusted := (fresh 0 1
        { (Settings.default : Settings Float) with arityPenalty := Scalar.zero }).after
      [.observe [⟨[.int 1], .int 1⟩], .consider (.ofTerm (.lam (.var 0)))]
    (drawn.isTrusted = false ∧
        Scalar.lt Scalar.zero (drawn.evidence.weight [.int 1] (.int 5)) = true ∧
        Scalar.isFinite (Scalar.sum (drawn.weightsAt [.int 1])) = true ∧
        ∃ y, (drawn.apply (.preferring 1) [.int 1]).value.1 = .ok y ∧
          Scalar.lt Scalar.zero (drawn.evidence.weight [.int 1] y) = true) ∧
      trusted.isTrusted = true ∧ ⟨[.int 1], .int 1⟩ ∈ trusted.rightExamples ∧
        (trusted.apply (.preferring 0) [.int 1]).value.1 = .ok (.int 1) := by
  have hdrawn := (use_agrees_with_what_was_learned 0 1 Settings.default
    [.observe [⟨[.int 1], .int 3⟩, ⟨[.int 1], .int 5⟩]] (.preferring 1) [.int 1]).1 (by decide)
  have htrusted := (use_agrees_with_what_was_learned 0 1
    { Settings.default with arityPenalty := Scalar.zero }
    [.observe [⟨[.int 1], .int 1⟩], .consider (.ofTerm (.lam (.var 0)))] (.preferring 0)
    [.int 1]).1 (by decide)
  dsimp only
  generalize hs : (fresh 0 1 (Settings.default : Settings Float)).after
    [.observe [⟨[.int 1], .int 3⟩, ⟨[.int 1], .int 5⟩]] = drawn at hdrawn ⊢
  generalize ht : (fresh 0 1
      { (Settings.default : Settings Float) with arityPenalty := Scalar.zero }).after
    [.observe [⟨[.int 1], .int 1⟩], .consider (.ofTerm (.lam (.var 0)))] = trusted at htrusted ⊢
  have hfalse : drawn.isTrusted = false := by
    rw [← hs]
    decide
  have hfive : Scalar.lt Scalar.zero (drawn.evidence.weight [.int 1] (.int 5)) = true := by
    rw [← hs]
    decide
  have hweights : ∀ e ∈ drawn.evidence.entries, ∀ o ∈ e.2.entries,
      Scalar.le Scalar.zero o.2 = true := by
    rw [← hs]
    decide
  have hfinite : Scalar.isFinite (Scalar.sum (drawn.weightsAt [.int 1])) = true := by
    rw [← hs]
    decide
  have htrue : trusted.isTrusted = true := by
    rw [← ht]
    decide
  have hright : ⟨[.int 1], .int 1⟩ ∈ trusted.rightExamples := by
    rw [← ht]
    decide
  refine ⟨⟨hfalse, hfive, hfinite, ?_⟩, htrue, hright, htrusted.1 htrue _ hright rfl⟩
  exact hdrawn.2 hfalse (Evidence.zero_le_weight hweights _) hfinite ⟨_, hfive⟩

set_option maxRecDepth 1000 in
/-- A marked argument is left out though it was observed so, whether the program is
trusted or not; and beside a weight below zero nothing is drawn. -/
theorem absent_arguments_and_negative_weights_give_nothing :
    let drawn := (fresh 0 2 (Settings.default : Settings Float)).after
      [.observe [⟨[.int 1, .empty], .int 7⟩]]
    let trusted := (fresh 0 2
        { (Settings.default : Settings Float) with arityPenalty := Scalar.zero }).after
      [.observe [⟨[.int 1, .empty], .int 1⟩], .consider (.ofTerm (.lam (.lam (.var 1))))]
    let reversed := (fresh 0 1
        { (Settings.default : Settings Float) with decay := -Scalar.ratio 1 2 }).after
      [.observe [⟨[.int 1], .int 3⟩], .observe [⟨[.int 1], .int 5⟩]]
    (drawn.isTrusted = false ∧
        Scalar.lt Scalar.zero (drawn.evidence.weight [.int 1, .empty] (.int 7)) = true ∧
        (drawn.apply (.preferring 0) [.int 1, .empty]).value.1 = .ok .missing) ∧
      (trusted.isTrusted = true ∧ trusted.rightExamples = [⟨[.int 1, .empty], .int 1⟩] ∧
        (trusted.apply (.preferring 0) [.int 1, .empty]).value.1 = .ok .missing) ∧
      (reversed.isTrusted = false ∧
        Scalar.lt Scalar.zero (reversed.evidence.weight [.int 1] (.int 5)) = true ∧
        (reversed.apply (.preferring 0) [.int 1]).value.1 = .ok .missing) := by
  decide

end Symbol

end SymbolInduction
