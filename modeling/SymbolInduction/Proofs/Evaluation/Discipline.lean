-- What a run keeps to, from its beginning to its end. A discipline says which data
-- may turn up in a run, which terms may be evaluated in which environments, and which
-- failures may come of it; its laws are those that one step of an evaluation needs.
-- Every run of code that keeps to it ends with such data or such a failure, or at a
-- limit; and whichever it is, the counters stand where the end says they stand.
import SymbolInduction.Proofs.Evaluation.Comparison
import SymbolInduction.Proofs.Evaluation.Watch

namespace SymbolInduction

/-- A failure that lies in the arguments of a function. -/
def EvalError.IsRefusal : EvalError → Prop
  | .arityMismatch .. | .typeMismatch _ | .indexOutOfRange _ | .overflow => True
  | _ => False

namespace Evaluation

open Metered

/-! ## Primitives that move no counter -/

/-- The computation, watched or not, moves no counter: it gives a value, or refuses its
arguments. -/
def Direct {α : Type} (Q : α → Prop) (x : Watched α) (y : Metered α) : Prop :=
  ∃ r : Except EvalError α, x = MonadExcept.ofExcept r ∧ y = MonadExcept.ofExcept r ∧
    (∀ a, r = .ok a → Q a) ∧ ∀ e, r = .error e → e.IsRefusal

variable {α β : Type} {Q : α → Prop} {S : β → Prop}

theorem direct_pure {a : α} (h : Q a) : Direct Q (pure a) (pure a) := by
  refine ⟨.ok a, rfl, rfl, ?_, ?_⟩
  · rintro _ ⟨⟩
    exact h
  · rintro _ ⟨⟩

theorem direct_throw {e : EvalError} (h : e.IsRefusal) : Direct Q (throw e) (throw e) := by
  refine ⟨.error e, rfl, rfl, ?_, ?_⟩
  · rintro _ ⟨⟩
  · rintro _ ⟨⟩
    exact h

theorem Direct.bind {x : Watched α} {y : Metered α} {f : α → Watched β} {g : α → Metered β}
    (hx : Direct Q x y) (hf : ∀ a, Q a → Direct S (f a) (g a)) :
    Direct S (x >>= f) (y >>= g) := by
  obtain ⟨r, rfl, rfl, hvalue, hrefusal⟩ := hx
  cases r with
  | ok a => exact hf a (hvalue a rfl)
  | error e => exact direct_throw (hrefusal e rfl)

theorem direct_asInt (place : String) (d : Datum) :
    Direct (fun _ => True) (MonadExcept.ofExcept (d.asInt place))
      (MonadExcept.ofExcept (d.asInt place)) := by
  cases d with
  | int n => exact direct_pure trivial
  | _ => exact direct_throw trivial

theorem direct_asBool (place : String) (d : Datum) :
    Direct (fun _ => True) (MonadExcept.ofExcept (d.asBool place))
      (MonadExcept.ofExcept (d.asBool place)) := by
  cases d with
  | bool b => exact direct_pure trivial
  | _ => exact direct_throw trivial

theorem direct_asList (place : String) (d : Datum) :
    Direct (fun _ => True) (MonadExcept.ofExcept (d.asList place))
      (MonadExcept.ofExcept (d.asList place)) := by
  cases d with
  | list ns => exact direct_pure trivial
  | _ => exact direct_throw trivial

theorem direct_fitting (n : Int) :
    Direct (fun _ => True) (MonadExcept.ofExcept (Arithmetic.fitting n))
      (MonadExcept.ofExcept (Arithmetic.fitting n)) := by
  unfold Arithmetic.fitting
  cases Decimal.int64OfInt? n with
  | some n => exact direct_pure trivial
  | none => exact direct_throw trivial

section

variable {limits : Limits} {apply : Datum → Datum → Watched Datum}
  {apply' : Datum → Datum → Metered Datum}

/-- What comes out of a primitive is plain, or is one of its arguments. -/
theorem direct_fire {p : Primitive} (hp : p ≠ .fix) (args : List Datum) :
    Direct (fun d => IsPlain d ∨ d ∈ args) (fireWith limits apply p args)
      (fireWith limits apply' p args) := by
  by_cases hargs : args.length = p.arity
  case neg =>
    rw [fire_mismatch limits apply hargs, fire_mismatch limits apply' hargs]
    exact direct_throw trivial
  cases p with
  | fix => exact absurd rfl hp
  | literal | nil =>
    obtain rfl := List.length_eq_zero_iff.1 hargs
    exact direct_pure (Or.inl trivial)
  | incr | decr =>
    obtain ⟨a, rfl⟩ := List.length_eq_one_iff.1 hargs
    exact (direct_asInt _ a).bind fun _ _ => (direct_fitting _).bind fun _ _ =>
      direct_pure (Or.inl trivial)
  | add | sub | mul =>
    obtain ⟨a, b, rfl⟩ := List.length_eq_two.1 hargs
    exact (direct_asInt _ a).bind fun _ _ => (direct_asInt _ b).bind fun _ _ =>
      (direct_fitting _).bind fun _ _ => direct_pure (Or.inl trivial)
  | eq =>
    obtain ⟨a, b, rfl⟩ := List.length_eq_two.1 hargs
    by_cases h : IsPlain a ∧ IsPlain b
    · obtain ⟨ha, hb⟩ := h
      cases a <;> cases ha <;> cases b <;> cases hb <;> first
        | exact direct_pure (Or.inl trivial)
        | exact direct_throw trivial
    · rw [fire_eq_mismatch limits apply (not_and_or.1 h),
        fire_eq_mismatch limits apply' (not_and_or.1 h)]
      exact direct_throw trivial
  | gt =>
    obtain ⟨a, b, rfl⟩ := List.length_eq_two.1 hargs
    exact (direct_asInt _ a).bind fun _ _ => (direct_asInt _ b).bind fun _ _ =>
      direct_pure (Or.inl trivial)
  | cond =>
    obtain ⟨c, t, e, rfl⟩ := List.length_eq_three.1 hargs
    refine (direct_asBool _ c).bind fun b _ => direct_pure (Or.inr ?_)
    cases b <;> simp
  | cons =>
    obtain ⟨x, xs, rfl⟩ := List.length_eq_two.1 hargs
    exact (direct_asInt _ x).bind fun _ _ => (direct_asList _ xs).bind fun _ _ =>
      direct_pure (Or.inl trivial)
  | car | cdr =>
    obtain ⟨xs, rfl⟩ := List.length_eq_one_iff.1 hargs
    refine (direct_asList _ xs).bind fun ns _ => ?_
    cases ns with
    | nil => exact direct_throw trivial
    | cons n ns => exact direct_pure (Or.inl trivial)
  | isNil | length =>
    obtain ⟨xs, rfl⟩ := List.length_eq_one_iff.1 hargs
    exact (direct_asList _ xs).bind fun _ _ => direct_pure (Or.inl trivial)

end

/-! ## Disciplines -/

/-- What a run may hold: its data, the terms that are evaluated and the environments in
which they are, and the failures that may come of it. -/
structure Discipline where
  data : Datum → Prop
  code : Term → List Datum → Prop
  failure : EvalError → Prop
  plain {d : Datum} : IsPlain d → data d
  waiting_iff {p : Primitive} {given : List Datum} : data (.waiting p given) ↔ ∀ d ∈ given, data d
  recur_iff {f : Datum} : data (.recur f) ↔ data f
  closure_iff {body : Term} {env : List Datum} : data (.closure body env) ↔ code (.lam body) env
  bound {i : UInt64} {env : List Datum} {d : Datum} :
    code (.var i) env → env[i.toNat]? = some d → data d
  unbound {i : UInt64} {env : List Datum} :
    code (.var i) env → env[i.toNat]? = none → failure (.unboundIndex i)
  body {body : Term} {env : List Datum} {x : Datum} :
    code (.lam body) env → data x → code body (x :: env)
  head {f x : Term} {env : List Datum} : code (.app f x) env → code f env
  argument {f x : Term} {env : List Datum} : code (.app f x) env → code x env
  promoted {body : Term} {env : List Datum} : code (.promoted body) env → code body []
  refusal {e : EvalError} : e.IsRefusal → failure e

/-- How a run ends that began at `m`: with a value, with a failure, or at a limit. The
steps stay within their limit, but for the one step that was too many; and the run comes
back to its level, but for the one level that was refused. Where a limit, or the level at
which the run began, is the greatest word, there is no word for the one that was too many,
and the run may stop there. -/
inductive Ends (failure : EvalError → Prop) (limits : Limits) (m : Meter) {α : Type}
    (Q : α → Prop) : EStateM.Result EvalError Meter α → Prop
  | value {a : α} {n : Meter} (h : Q a) (hfrom : m.steps ≤ n.steps)
      (hsteps : n.steps ≤ limits.steps) (hdepth : n.depth = m.depth) :
      Ends failure limits m Q (.ok a n)
  | failure {e : EvalError} {n : Meter} (h : failure e) (hsteps : n.steps ≤ limits.steps)
      (hdepth : n.depth = m.depth) : Ends failure limits m Q (.error e n)
  | stepLimit {n : Meter} (hsteps : n.steps = limits.steps + 1) (hdepth : n.depth = m.depth) :
      Ends failure limits m Q (.error (.stepLimit limits.steps) n)
  | depthExceeded {n : Meter} (hsteps : n.steps ≤ limits.steps) (hdepth : n.depth = m.depth + 1) :
      Ends failure limits m Q (.error (.depthExceeded limits.depth) n)
  | overflow {n : Meter} (h : limits.steps + 1 = UInt64.size ∨
      UInt64.size ≤ max limits.depth m.depth + 1) (hsteps : n.steps ≤ limits.steps)
      (hdepth : n.depth = m.depth) : Ends failure limits m Q (.error .counterOverflow n)

section

variable {failure : EvalError → Prop} {limits : Limits} {m m' : Meter}

theorem Ends.later {r : EStateM.Result EvalError Meter α} (h : Ends failure limits m' Q r)
    (hsteps : m.steps ≤ m'.steps) (hdepth : m'.depth = m.depth) : Ends failure limits m Q r := by
  cases h with
  | value h hfrom hn hd => exact .value h (Nat.le_trans hsteps hfrom) hn (hd.trans hdepth)
  | failure h hn hd => exact .failure h hn (hd.trans hdepth)
  | stepLimit hn hd => exact .stepLimit hn (hd.trans hdepth)
  | depthExceeded hn hd => exact .depthExceeded hn (by rw [hd, hdepth])
  | overflow h hn hd => exact .overflow (hdepth ▸ h) hn (hd.trans hdepth)

/-- A run that failed has no value of any kind. -/
theorem Ends.of_error {e : EvalError} {n : Meter} (h : Ends failure limits m Q (.error e n))
    (S : β → Prop) : Ends failure limits m S (.error e n) := by
  cases h with
  | failure h hn hd => exact .failure h hn hd
  | stepLimit hn hd => exact .stepLimit hn hd
  | depthExceeded hn hd => exact .depthExceeded hn hd
  | overflow h hn hd => exact .overflow h hn hd

theorem Ends.depth_le_of_ok {a : α} {n : Meter} (h : Ends failure limits m Q (.ok a n)) :
    n.depth ≤ m.depth + 1 := by
  cases h with
  | value _ _ _ hd => omega

theorem Ends.depth_le_of_error {e : EvalError} {n : Meter}
    (h : Ends failure limits m Q (.error e n)) : n.depth ≤ m.depth + 1 := by
  cases h <;> omega

/-- On the way back from a level below. -/
theorem Ends.leave {r : EStateM.Result EvalError Meter α} (hroom : m.depth < limits.depth)
    (h : Ends failure limits { m with depth := m.depth + 1 } Q r) :
    Ends failure limits m Q (match (motive := _ → EStateM.Result EvalError Meter α) r with
      | .ok a n => .ok a { n with depth := n.depth - 1 }
      | .error e n => .error e { n with depth := n.depth - 1 }) := by
  cases h with
  | value h hfrom hn hd => exact .value h hfrom hn (by simp [hd])
  | failure h hn hd => exact .failure h hn (by simp [hd])
  | stepLimit hn hd => exact .stepLimit hn (by simp [hd])
  | depthExceeded hn hd => exact .depthExceeded hn (by simp [hd])
  | overflow h hn hd =>
    have hlimit : max limits.depth (m.depth + 1) = max limits.depth m.depth := by omega
    exact .overflow (by rwa [← hlimit]) hn (by simp [hd])

/-- A run that is refused its next step. -/
theorem ends_refuseStep (h : m.steps = limits.steps) :
    Ends failure limits m Q (refuseStep limits m) := by
  have hword := limits.steps_lt
  rw [refuseStep_meter, h]
  split
  · exact .stepLimit rfl rfl
  · exact .overflow (Or.inl (by omega)) (Nat.le_of_eq h) rfl

/-- A run that is refused its next level. -/
theorem ends_refuseLevel (h : m.steps ≤ limits.steps) :
    Ends failure limits m Q (refuseLevel limits m) := by
  rw [refuseLevel_meter]
  split
  · exact .depthExceeded h rfl
  · exact .overflow (Or.inr (by omega)) h rfl

end

/-! ## Runs that are watched -/

/-- A level that is on record already, or is not deeper than one below the limit or below
where the watch stands. -/
def InReach (limits : Limits) (w : Watch) (level : Nat) : Prop :=
  level ∈ w.levels ∨ level ≤ max limits.depth w.meter.depth + 1

section

variable {limits : Limits} {w w' : Watch} {m : Meter} {level : Nat}

/-- What is in reach from further on is in reach from the start. -/
theorem InReach.of_moved (h : InReach limits (w.moved m) level)
    (hdepth : m.depth ≤ max limits.depth w.meter.depth) : InReach limits w level := by
  rcases h with hmem | hle
  · rcases List.mem_cons.1 hmem with rfl | hmem
    · exact Or.inr (Nat.le_succ_of_le hdepth)
    · exact Or.inl hmem
  · have hle : level ≤ max limits.depth m.depth + 1 := hle
    exact Or.inr (by omega)

/-- One more move, not deeper than one below the start. -/
theorem inReach_moved (hreach : ∀ level ∈ w'.levels, InReach limits w level)
    (hdepth : m.depth ≤ w.meter.depth + 1) : ∀ level ∈ (w'.moved m).levels, InReach limits w level := by
  intro level hlevel
  rcases List.mem_cons.1 hlevel with rfl | hmem
  · exact Or.inr (Nat.le_trans hdepth (Nat.succ_le_succ (Nat.le_max_right ..)))
  · exact hreach level hmem

end

/-- A watched computation beside the computation itself, with fuel for the steps that are
left: both end in the same way, as the discipline has it; and the levels that go on record
are in reach. -/
def Abides (D : Discipline) (limits : Limits) (fuel : Nat) (Q : α → Prop) (x : Watched α)
    (y : Metered α) : Prop :=
  ∀ w : Watch, w.meter.steps ≤ limits.steps → limits.steps ≤ w.meter.steps + fuel →
    Ends D.failure limits w.meter Q (y w.meter) ∧ Watched.forget (x w) = y w.meter ∧
      ∀ level ∈ Watched.levels (x w), InReach limits w level

section

variable {D : Discipline} {limits : Limits} {fuel : Nat}

theorem abides_pure {a : α} (h : Q a) : Abides D limits fuel Q (pure a) (pure a) :=
  fun _ hsteps _ => ⟨.value h (Nat.le_refl _) hsteps rfl, rfl, fun _ => Or.inl⟩

theorem abides_throw {e : EvalError} (h : D.failure e) :
    Abides D limits fuel Q (throw e) (throw e) :=
  fun _ hsteps _ => ⟨.failure h hsteps rfl, rfl, fun _ => Or.inl⟩

theorem Abides.bind {x : Watched α} {y : Metered α} {f : α → Watched β} {g : α → Metered β}
    (hx : Abides D limits fuel Q x y) (hf : ∀ a, Q a → Abides D limits fuel S (f a) (g a)) :
    Abides D limits fuel S (x >>= f) (y >>= g) := by
  intro w hsteps hfuel
  obtain ⟨hends, hforget, hlevels⟩ := hx w hsteps hfuel
  simp only [Bind.bind, EStateM.bind]
  cases hxw : x w with
  | error e w' =>
    rw [hxw] at hforget hlevels
    rw [← hforget] at hends ⊢
    exact ⟨hends.of_error S, rfl, hlevels⟩
  | ok a w' =>
    rw [hxw] at hforget hlevels
    rw [← hforget] at hends ⊢
    cases hends with
    | value ha hfrom hsteps' hdepth =>
      obtain ⟨hends', hforget', hlevels'⟩ := hf a ha w' hsteps' (by omega)
      refine ⟨hends'.later hfrom hdepth, hforget', fun level hlevel => ?_⟩
      rcases hlevels' level hlevel with hmem | hle
      · exact hlevels level hmem
      · exact Or.inr (hdepth ▸ hle)

/-- A step that is refused goes on record. -/
theorem forget_refuseStep (w : Watch) :
    Watched.forget ((refuseStep limits : Watched α) w) = refuseStep limits w.meter ∧
      ∀ level ∈ Watched.levels ((refuseStep limits : Watched α) w), InReach limits w level := by
  unfold refuseStep
  by_cases hword : w.meter.steps + 1 < UInt64.size
  · simp only [Recorder.meter, Recorder.move, if_pos hword]
    exact ⟨rfl, inReach_moved (fun _ => Or.inl) (Nat.le_succ _)⟩
  · simp only [Recorder.meter, if_neg hword]
    exact ⟨rfl, fun _ => Or.inl⟩

/-- So does a level. -/
theorem forget_refuseLevel (w : Watch) :
    Watched.forget ((refuseLevel limits : Watched α) w) = refuseLevel limits w.meter ∧
      ∀ level ∈ Watched.levels ((refuseLevel limits : Watched α) w), InReach limits w level := by
  unfold refuseLevel
  by_cases hword : w.meter.depth + 1 < UInt64.size
  · simp only [Recorder.meter, Recorder.move, if_pos hword]
    exact ⟨rfl, inReach_moved (fun _ => Or.inl) (Nat.le_refl _)⟩
  · simp only [Recorder.meter, if_neg hword]
    exact ⟨rfl, fun _ => Or.inl⟩

/-- A step uses up one unit of fuel. -/
theorem Abides.step {x : Watched α} {y : Metered α} (h : Abides D limits fuel Q x y) :
    Abides D limits (fuel + 1) Q (tick limits >>= fun _ => x) (tick limits >>= fun _ => y) := by
  intro w hsteps hfuel
  by_cases hroom : w.meter.steps < limits.steps
  · simp only [Bind.bind, EStateM.bind, tick_watch, tick_meter, if_pos hroom]
    obtain ⟨hends, hforget, hlevels⟩ :=
      h (w.moved { w.meter with steps := w.meter.steps + 1 }) hroom
        (show limits.steps ≤ w.meter.steps + 1 + fuel by omega)
    refine ⟨hends.later (Nat.le_succ _) rfl, hforget, fun level hlevel => ?_⟩
    exact (hlevels level hlevel).of_moved (Nat.le_max_right ..)
  · have hlast : limits.steps ≤ w.meter.steps := Nat.le_of_not_lt hroom
    rw [tick_bind_refused hlast, tick_bind_refused (s := w) hlast]
    exact ⟨ends_refuseStep (Nat.le_antisymm hsteps hlast), forget_refuseStep w⟩

/-- Where no fuel is left, no step is. -/
theorem abides_exhausted {y : Metered α}
    (h : ∀ m : Meter, limits.steps ≤ m.steps → y m = refuseStep limits m) :
    Abides D limits 0 Q (refuseStep limits) y := by
  intro w hsteps hfuel
  rw [h w.meter hfuel]
  exact ⟨ends_refuseStep (by omega), forget_refuseStep w⟩

theorem Abides.nested {x : Watched α} {y : Metered α} (h : Abides D limits fuel Q x y) :
    Abides D limits fuel Q (Metered.nested limits x) (Metered.nested limits y) := by
  intro w hsteps hfuel
  rw [nested_watch, nested_meter]
  by_cases hroom : w.meter.depth < limits.depth
  · let below : Meter := { w.meter with depth := w.meter.depth + 1 }
    obtain ⟨hends, hforget, hlevels⟩ := h (w.moved below) hsteps hfuel
    have hreach : ∀ level ∈ Watched.levels (x (w.moved below)), InReach limits w level :=
      fun level hlevel => (hlevels level hlevel).of_moved (show w.meter.depth + 1 ≤ _ by omega)
    have hback := hends.leave hroom
    rw [if_pos hroom, if_pos hroom]
    change Ends _ _ _ _ (match y below with | .ok a n => _ | .error e n => _) at hback
    cases hxw : x (w.moved below) with
    | ok a w' =>
      rw [hxw] at hforget hreach
      have hy : y below = .ok a w'.meter := hforget.symm
      rw [hy] at hback ⊢
      exact ⟨hback, rfl, inReach_moved hreach hback.depth_le_of_ok⟩
    | error e w' =>
      rw [hxw] at hforget hreach
      have hy : y below = .error e w'.meter := hforget.symm
      rw [hy] at hback ⊢
      exact ⟨hback, rfl, inReach_moved hreach hback.depth_le_of_error⟩
  · rw [if_neg hroom, if_neg hroom]
    exact ⟨ends_refuseLevel hsteps, forget_refuseLevel w⟩

theorem abides_ofExcept {r : Except EvalError α} (hvalue : ∀ a, r = .ok a → Q a)
    (hfailure : ∀ e, r = .error e → D.failure e) :
    Abides D limits fuel Q (MonadExcept.ofExcept r) (MonadExcept.ofExcept r) := by
  cases r with
  | ok a => exact abides_pure (hvalue a rfl)
  | error e => exact abides_throw (hfailure e rfl)

theorem Direct.abides {P : α → Prop} {x : Watched α} {y : Metered α} (h : Direct P x y)
    (hP : ∀ a, P a → Q a) : Abides D limits fuel Q x y := by
  obtain ⟨r, rfl, rfl, hvalue, hrefusal⟩ := h
  exact abides_ofExcept (fun a ha => hP a (hvalue a ha)) fun e he => D.refusal (hrefusal e he)

/-! ## The pieces of an evaluation -/

section

variable {eval : Term → Watched Datum} {eval' : Term → Metered Datum}
  {apply : Datum → Datum → Watched Datum} {apply' : Datum → Datum → Metered Datum}

theorem abides_asBool (d : Datum) (place : String) :
    Abides D limits fuel (fun _ => True) (MonadExcept.ofExcept (d.asBool place))
      (MonadExcept.ofExcept (d.asBool place)) :=
  (direct_asBool place d).abides fun _ => id

theorem abides_lookup {i : UInt64} {env : List Datum} (h : D.code (.var i) env) :
    Abides D limits fuel D.data (lookup env i) (lookup env i) := by
  unfold lookup
  cases hi : env[i.toNat]? with
  | some d => exact abides_pure (D.bound h hi)
  | none => exact abides_throw (D.unbound h hi)

theorem abides_recurse
    (happly : ∀ f x, D.data f → D.data x → Abides D limits fuel D.data (apply f x) (apply' f x))
    {x f : Datum} (hx : D.data x) (hf : D.data f) :
    Abides D limits fuel D.data (recurseWith limits apply x f)
      (recurseWith limits apply' x f) :=
  Abides.nested ((happly f _ hf (D.recur_iff.2 hf)).bind fun g hg => happly g x hg hx)

theorem abides_fire
    (happly : ∀ f x, D.data f → D.data x → Abides D limits fuel D.data (apply f x) (apply' f x))
    (p : Primitive) {args : List Datum} (hargs : ∀ d ∈ args, D.data d) :
    Abides D limits fuel D.data (fireWith limits apply p args)
      (fireWith limits apply' p args) := by
  by_cases hp : p = .fix
  · subst hp
    have hmismatch : Direct D.data (throw (.arityMismatch 2 args.length))
        (throw (.arityMismatch 2 args.length)) := direct_throw trivial
    rcases args with _ | ⟨x, _ | ⟨f, _ | ⟨d, rest⟩⟩⟩
    · exact hmismatch.abides fun _ => id
    · exact hmismatch.abides fun _ => id
    · exact abides_recurse happly (hargs x (by simp)) (hargs f (by simp))
    · exact hmismatch.abides fun _ => id
  · exact (direct_fire hp args).abides fun d hd => hd.elim D.plain (hargs d)

theorem abides_applyAll
    (happly : ∀ f x, D.data f → D.data x → Abides D limits fuel D.data (apply f x) (apply' f x))
    {args : List Term} (hargs : ∀ t ∈ args, Abides D limits fuel D.data (eval t) (eval' t))
    {f : Datum} (hf : D.data f) :
    Abides D limits fuel D.data (applyAllWith eval apply f args)
      (applyAllWith eval' apply' f args) := by
  induction args generalizing f with
  | nil => exact abides_pure hf
  | cons t args ih =>
    rw [List.forall_mem_cons] at hargs
    exact hargs.1.bind fun x hx => (happly f x hf hx).bind fun g hg => ih hargs.2 hg

theorem abides_evalSpine
    (happly : ∀ f x, D.data f → D.data x → Abides D limits fuel D.data (apply f x) (apply' f x))
    {head : Term} (hhead : Abides D limits fuel D.data (eval head) (eval' head)) {args : List Term}
    (hargs : ∀ t ∈ args, Abides D limits fuel D.data (eval t) (eval' t)) :
    Abides D limits fuel D.data (evalSpineWith eval apply head args)
      (evalSpineWith eval' apply' head args) := by
  by_cases h : head ≠ .prim .cond ∨ args.length < 3
  · rw [evalSpine_eq h, evalSpine_eq h]
    exact hhead.bind fun f hf => abides_applyAll happly hargs hf
  · obtain ⟨rfl, hlen⟩ : head = .prim .cond ∧ 3 ≤ args.length := by
      simpa using h
    -- `if` with its three arguments: the condition, and one branch of two
    rcases args with _ | ⟨c, _ | ⟨t, _ | ⟨e, rest⟩⟩⟩
    · simp at hlen
    · simp at hlen
    · simp at hlen
    · simp only [List.forall_mem_cons] at hargs
      obtain ⟨hc, ht, he, hrest⟩ := hargs
      refine hc.bind fun c _ => (abides_asBool c _).bind fun b _ => ?_
      have hbranch : Abides D limits fuel D.data (eval (if b then t else e))
          (eval' (if b then t else e)) := by
        cases b with
        | true => exact ht
        | false => exact he
      exact hbranch.bind fun f hf => abides_applyAll happly hrest hf

end

/-! ## Whole runs -/

theorem Discipline.constant (D : Discipline) (p : Primitive) :
    D.data ((Datum.ofConstant? p).getD (.waiting p [])) := by
  cases p with
  | literal | nil => exact D.plain trivial
  | _ => exact D.waiting_iff.2 (by simp)

theorem Discipline.spineOn (D : Discipline) {t : Term} {args : List Term} {env : List Datum}
    (ht : D.code t env) (hargs : ∀ a ∈ args, D.code a env) :
    D.code (t.spineOn args).1 env ∧ ∀ a ∈ (t.spineOn args).2, D.code a env := by
  induction t generalizing args with
  | app f x ihf _ =>
    exact ihf (D.head ht) (List.forall_mem_cons.2 ⟨D.argument ht, hargs⟩)
  | _ => exact ⟨ht, hargs⟩

theorem Discipline.spine (D : Discipline) {t : Term} {env : List Datum} (h : D.code t env) :
    D.code t.spine.1 env ∧ ∀ a ∈ t.spine.2, D.code a env :=
  D.spineOn h (by simp)

/-- A call that finds no step left is refused, however much fuel it has. -/
theorem evalWithin_refused {m : Meter} (h : limits.steps ≤ m.steps) (fuel : Nat) (t : Term)
    (env : List Datum) : evalWithin limits fuel t env m = refuseStep limits m := by
  cases fuel with
  | zero => rw [evalWithin_zero]
  | succ fuel =>
    unfold evalWithin
    exact tick_bind_refused h _

theorem applyWithin_refused {m : Meter} (h : limits.steps ≤ m.steps) (fuel : Nat) (f x : Datum) :
    applyWithin limits fuel f x m = refuseStep limits m := by
  cases fuel with
  | zero => rw [applyWithin_zero]
  | succ fuel =>
    unfold applyWithin
    exact tick_bind_refused h _

/-- The watched evaluation and the evaluation abide by the discipline, where the one has
fuel for the steps that are left and the other one has as much. -/
theorem abides_within (D : Discipline) (limits : Limits) {fuel fuel' : Nat} (hle : fuel ≤ fuel') :
    (∀ t env, D.code t env → Abides D limits fuel D.data (evalWithin limits fuel t env)
      (evalWithin limits fuel' t env)) ∧
    ∀ f x, D.data f → D.data x → Abides D limits fuel D.data (applyWithin limits fuel f x)
      (applyWithin limits fuel' f x) := by
  induction fuel generalizing fuel' with
  | zero =>
    constructor
    · intro t env _
      rw [evalWithin_zero]
      exact abides_exhausted fun m hm => evalWithin_refused hm fuel' t env
    · intro f x _ _
      rw [applyWithin_zero]
      exact abides_exhausted fun m hm => applyWithin_refused hm fuel' f x
  | succ fuel ih =>
    obtain ⟨fuel', rfl⟩ : ∃ n, fuel' = n + 1 := ⟨fuel' - 1, by omega⟩
    obtain ⟨heval, happly⟩ := ih (Nat.le_of_succ_le_succ hle)
    constructor
    · intro t env ht
      unfold evalWithin
      refine Abides.step ?_
      cases t with
      | var i => exact abides_lookup ht
      | lam body => exact abides_pure (D.closure_iff.2 ht)
      | prim p => exact abides_pure (D.constant p)
      | promoted body => exact heval body [] (D.promoted ht)
      | app f x =>
        obtain ⟨hhead, hargs⟩ := D.spine ht
        exact Abides.nested (abides_evalSpine happly (heval _ env hhead)
          fun a ha => heval a env (hargs a ha))
    · intro f x hf hx
      unfold applyWithin
      refine Abides.step ?_
      cases f with
      | closure body env =>
        exact Abides.nested (heval body (x :: env) (D.body (D.closure_iff.1 hf) hx))
      | waiting p given =>
        have hall : ∀ d ∈ given ++ [x], D.data d := by
          simpa [or_imp, forall_and] using And.intro (D.waiting_iff.1 hf) hx
        dsimp only
        split
        · exact abides_fire happly p hall
        · exact abides_pure (D.waiting_iff.2 hall)
      | recur f => exact abides_recurse happly hx (D.recur_iff.1 hf)
      | _ => exact abides_throw (D.refusal trivial)

end

end Evaluation

end SymbolInduction
