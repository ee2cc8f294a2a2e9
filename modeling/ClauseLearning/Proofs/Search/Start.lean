import ClauseLearning.Proofs.Construction
import ClauseLearning.Proofs.Search.Step

/-!
# How a search starts

A search is assembled from new strategies, each made for the formula. Before the first step the
literals of input clauses of one literal are assigned at level 0.

Main statement: an assembled search starts with a right answer, or with the invariant. It is the
first place where the formula comes from a caller: here the formulas are those that can be
constructed, over variables that literals can represent.
-/

namespace ClauseLearning

/-! ### Clauses of one literal -/

namespace Trail

/-- A trail at level 0 that has the literals of clauses of one literal: only such literals, and all
of them before a place. -/
structure Rooted (t : Trail) (f : Formula) (place : Nat) : Prop where
  valid : t.Valid f.numVars
  level_eq : t.level = 0
  head_eq : t.head = 0
  forced : ∀ {i : Nat} {s : Step}, t.steps[i]? = some s →
    ∃ p, s.reason = .clause p ∧ f.literalsAt p = some [s.literal]
  units : ∀ {p : Nat} {l : Literal}, p < place → f.literalsAt p = some [l] → t.Holds l

namespace Rooted

variable {f : Formula} {t : Trail} {place : Nat}

theorem empty (f : Formula) : (Trail.empty f.numVars).Rooted f 0 where
  valid := valid_empty _
  level_eq := rfl
  head_eq := rfl
  forced at_i := by simp [steps_empty] at at_i
  units before := absurd before (Nat.not_lt_zero _)

/-- The next clause asks for nothing new. -/
theorem skip (rooted : t.Rooted f place)
    (holds : ∀ l, f.literalsAt place = some [l] → t.Holds l) : t.Rooted f (place + 1) :=
  { rooted with
    units := fun {p l} before found => by
      rcases Nat.lt_succ_iff_lt_or_eq.1 before with earlier | rfl
      · exact rooted.units earlier found
      · exact holds l found }

/-- The next clause has one literal, whose variable is free. -/
theorem push {l : Literal} (rooted : t.Rooted f place) (wellFormed : f.WellFormed)
    (found : f.literalsAt place = some [l]) (free : t.values.value? l.var = none) :
    t.push l (.clause place) = .ok (t.pushed l (.clause place)) ∧
      (t.pushed l (.clause place)).Rooted f (place + 1) := by
  have member : l ∈ [l] := List.mem_cons_self ..
  obtain ⟨ran, valid⟩ := rooted.valid.push (wellFormed.positive found l member)
    (wellFormed.declared found l member) free place
  refine ⟨ran, valid, rooted.level_eq, rooted.head_eq, ?_, ?_⟩
  · intro i s at_i
    rcases getElem?_pushed_eq_some.1 at_i with old | ⟨_, rfl⟩
    · exact rooted.forced old
    · exact ⟨place, rfl, found⟩
  -- The unit clauses met so far are the earlier ones and this one.
  · intro p q before at_p
    rcases Nat.lt_succ_iff_lt_or_eq.1 before with earlier | rfl
    · exact holds_pushed.2 (.inl (rooted.units earlier at_p))
    · rw [found] at at_p
      cases at_p
      exact holds_pushed.2 (.inr rfl)

/-- What is on the trail is true in every model. -/
theorem isTrue {σ : Valuation} {l : Literal} (rooted : t.Rooted f place) (models : f.Models σ)
    (holds : t.Holds l) : l.IsTrue σ := by
  obtain ⟨i, s, at_i, rfl⟩ := holds
  obtain ⟨p, _, found⟩ := rooted.forced at_i
  obtain ⟨q, member, true_q⟩ := models p _ found
  rwa [List.mem_singleton.1 member] at true_q

/-- Once all clauses have been looked at, formula and trail are coherent. -/
theorem coherent (rooted : t.Rooted f f.size) (wellFormed : f.WellFormed)
    (nonempty : ∀ {place : Nat}, f.literalsAt place ≠ some []) : t.Coherent f where
  wellFormed := wellFormed
  valid := rooted.valid
  -- The reason of a step is a clause of one literal, without others that could fail to be false.
  justified := by
    intro i s place at_i reason
    obtain ⟨p, from_p, found⟩ := rooted.forced at_i
    rw [from_p] at reason
    cases reason
    refine ⟨_, found, List.mem_cons_self .., fun q member different => ?_⟩
    exact absurd (List.mem_singleton.1 member) different
  nonempty := nonempty
  units found := by
    obtain ⟨i, s, at_i, rfl⟩ := rooted.units (Formula.lt_size_of_literalsAt found) found
    have level := rooted.valid.level_le at_i
    exact ⟨i, s, at_i, rfl, rooted.level_eq ▸ level⟩
  -- There is only level 0: nothing below it can be closed, and nothing else can wait.
  closed k lower := by
    rw [rooted.level_eq] at lower
    exact absurd lower (Nat.not_lt_zero _)
  pending at_i _ := by
    have level := rooted.valid.level_le at_i
    rw [rooted.level_eq] at level ⊢
    exact Nat.le_zero.1 level

end Rooted

end Trail

namespace Search

variable {G : Type}

/-- Assigning the literals of the clauses of one literal succeeds; if two of them contradict each
other, there is no model. -/
theorem assertUnits_ok {f : Formula} (wellFormed : f.WellFormed) (cs : List Clause) :
    ∀ (place : Nat) (t : Trail), f.clauses.toList.drop place = cs → t.Rooted f place →
      ∃ next, assertUnits place cs t = .ok (next, true) ∧ next.Rooted f f.size ∨
        assertUnits place cs t = .ok (next, false) ∧ ∀ σ, ¬f.Models σ := by
  induction cs with
  | nil =>
    intro place t rest rooted
    refine ⟨t, .inl ⟨rfl, { rooted with units := fun {p l} before => rooted.units ?_ }⟩⟩
    have seen : f.size ≤ place := by simpa [Formula.size] using rest
    exact Nat.lt_of_lt_of_le before seen
  | cons c cs ih =>
    intro place t rest rooted
    have at_place : f.clauses[place]? = some c := by
      have first : (f.clauses.toList.drop place)[0]? = some c := by rw [rest]; rfl
      simpa using first
    have found : f.literalsAt place = some c.literals := Formula.literalsAt_of_clause at_place
    have later : f.clauses.toList.drop (place + 1) = cs := by
      rw [← List.drop_drop, rest]
      rfl
    unfold assertUnits
    split
    next l shape =>
      rw [shape] at found
      split
      next value =>
        refine ih (place + 1) t later (rooted.skip fun q at_place => ?_)
        rw [found] at at_place
        cases at_place
        exact rooted.valid.literalValue?_eq_true.1 value
      next value =>
        -- The trail has the complement, which is true in every model as well.
        refine ⟨t, .inr ⟨rfl, fun σ models => ?_⟩⟩
        have false_l := rooted.isTrue models (rooted.valid.literalValue?_eq_false.1 value)
        obtain ⟨q, member, true_q⟩ := models place _ found
        rw [List.mem_singleton.1 member] at true_q
        exact (Literal.isTrue_neg σ l).1 false_l true_q
      next value =>
        obtain ⟨ran, rooted_next⟩ := rooted.push wellFormed found
          (rooted.valid.literalValue?_eq_none.1 value)
        rw [ran]
        exact ih (place + 1) _ later rooted_next
    next other =>
      refine ih (place + 1) t later (rooted.skip fun l at_place => ?_)
      rw [found] at at_place
      exact absurd (Option.some.inj at_place) (other l)

/-! ### Assembling -/

/-- A search put together from new strategies. Each strategy is made for the formula, with options
of its own. -/
inductive Assembled [RandomSource G] (f : Formula) (o : Options) : Search G → Prop where
  | ofParts (kinds : Strategies) (forBranching forPhases forRestarter forDatabase : Options)
      {propagator : Propagator} (made : Propagator.make kinds.propagator f = .ok propagator) :
      Assembled f o (Search.ofParts f o propagator
        (Branching.make kinds.branching f.numVars forBranching)
        (Phases.make kinds.phase f.numVars forPhases)
        (Restarter.make kinds.restarter forRestarter)
        (Database.make kinds.database f forDatabase))

theorem Assembled.fresh [RandomSource G] {f : Formula} {o : Options} {s : Search G}
    (assembled : s.Assembled f o) : s.verdict = none := by
  cases assembled
  rfl

theorem Assembled.formula_eq [RandomSource G] {f : Formula} {o : Options} {s : Search G}
    (assembled : s.Assembled f o) : s.formula = f := by
  cases assembled
  rfl

theorem Assembled.options_eq [RandomSource G] {f : Formula} {o : Options} {s : Search G}
    (assembled : s.Assembled f o) : s.options = o := by
  cases assembled
  rfl

theorem assembled_of_build [RandomSource G] {f : Formula} {o : Options} {kinds : Strategies}
    {s : Search G} (built : build f o kinds = .ok s) : s.Assembled f o := by
  unfold build at built
  cases made : Propagator.make kinds.propagator f with
  | error fault => simp [made, bind, Except.bind] at built
  | ok propagator =>
    rw [made, ok_bind, pure_eq_ok] at built
    cases built
    exact .ofParts kinds o o o o made

theorem build_ok [RandomSource G] {f : Formula} (o : Options) (kinds : Strategies)
    (wellFormed : f.WellFormed) : ∃ s : Search G, build f o kinds = .ok s := by
  obtain ⟨propagator, made, _⟩ := Propagator.make_ok kinds.propagator wellFormed
  unfold build
  rw [made, ok_bind]
  exact ⟨_, rfl⟩

/-- The parts of an assembled search know what they rely on, whatever has a value. -/
theorem Assembled.steady [RandomSource G] {f : Formula} {o : Options} {s : Search G} {trail : Trail}
    (assembled : s.Assembled f o) (all_input : f.inputCount = f.size) (coherent : trail.Coherent f)
    (head_eq : trail.head = 0) :
    ({ s with trail := trail } : Search G).Steady f o ∧ s.propagator.Ready f trail := by
  cases assembled with
  | @ofParts kinds _ _ _ _ propagator made =>
    have wellFormed := coherent.wellFormed
    -- There are no learnt clauses yet.
    have once : f.LearntOnce := by
      intro p q ls ms learnt _ found
      have inside := Formula.lt_size_of_literalsAt found
      omega
    refine ⟨⟨.refl all_input, coherent, ?_, ?_, Branching.covers_make _ _, Phases.sized_make _ _,
      rfl⟩, ?_⟩
    · exact Analyser.clear_empty _
    · refine Database.indexes_indexOf ?_ wellFormed.present once
      cases kinds.database <;> rfl
    · obtain ⟨p, made_p, _, _, ready⟩ := Propagator.make_ok kinds.propagator wellFormed
      rw [made] at made_p
      cases made_p
      exact ready trail coherent head_eq

/-! ### Starting -/

theorem not_satisfiable_of_hasEmptyClause {f : Formula} (empty : f.hasEmptyClause = true) :
    ¬f.Satisfiable := by
  rintro ⟨σ, satisfied⟩
  obtain ⟨c, member, no_literals⟩ := List.any_eq_true.1 empty
  obtain ⟨l, l_mem, _⟩ := satisfied c member
  have none_there : c.literals = [] := List.isEmpty_iff.1 no_literals
  rw [none_there] at l_mem
  cases l_mem

theorem nonempty_of_hasEmptyClause {f : Formula} {place : Nat} (all_input : f.inputCount = f.size)
    (nonempty : ¬f.hasEmptyClause = true) : f.literalsAt place ≠ some [] := by
  intro found
  obtain ⟨c, at_place, no_literals⟩ := Formula.literalsAt_eq_some.1 found
  have inside := Formula.lt_size_of_literalsAt found
  refine nonempty (List.any_eq_true.2 ⟨c, ?_, List.isEmpty_iff.2 no_literals⟩)
  exact Formula.mem_inputClauses.2 ⟨place, all_input ▸ inside, at_place⟩

/-- A formula without clauses is solved by every model of its variables. -/
theorem solvedBy_of_isEmpty {f : Formula} {values : Array Bool} {m : Model}
    (wellFormed : f.WellFormed) (empty : f.isEmpty = true) (made : Model.ofValues values = .ok m)
    (size_eq : values.size = f.numVars) : f.SolvedBy m := by
  refine Formula.solvedBy_of_ofValues wellFormed made size_eq ?_
  rw [Formula.satisfiedBy_iff]
  intro place ls _ found
  have inside := Formula.lt_size_of_literalsAt found
  have none_there : f.size = 0 := by simpa [Formula.isEmpty, Formula.size] using empty
  omega

theorem unlearnt_lt_square (s : Search G) : s.unlearnt < (s.capacity + 1) * (s.capacity + 1) := by
  have limits : (s.capacity - (s.database.limit?).getD s.capacity) * (s.capacity + 1) ≤
      s.capacity * (s.capacity + 1) := Nat.mul_le_mul_right _ (Nat.sub_le ..)
  have clauses : s.capacity - s.learnt ≤ s.capacity := Nat.sub_le ..
  rw [Nat.succ_mul, unlearnt]
  omega

theorem pending_lt (s : Search G) (control : Control) :
    s.pending control < 2 * s.formula.numVars + 3 := by
  cases control with
  | propagate => simp only [pending]; omega
  | conflict place => simp only [pending]; omega
  | decide => simp only [pending]; omega

/-- The number of steps allowed is more than it can be to the end. -/
theorem toGo_lt (s : Search G) (control : Control) :
    s.toGo control < 2 ^ roundBound s.formula.numVars - 1 := by
  have waiting := s.pending_lt control
  have learning := s.unlearnt_lt_square
  unfold toGo
  unfold capacity at learning
  generalize s.formula.numVars = n at waiting learning ⊢
  -- Each factor of the measure is at most a power of two.
  have clauses : 3 ^ n + 1 ≤ 2 ^ (2 * n + 1) := by
    have power : 3 ^ n ≤ (2 ^ 2) ^ n := Nat.pow_le_pow_left (by decide) n
    have positive : 0 < (2 ^ 2) ^ n := Nat.pow_pos (by decide)
    rw [Nat.pow_succ, Nat.pow_mul]
    omega
  have steps : 2 * n + 3 ≤ 2 ^ (n + 2) := by
    have power : n < 2 ^ n := Nat.lt_two_pow_self
    rw [Nat.pow_add]
    omega
  calc s.unlearnt * (2 * n + 3) + s.pending control
      < s.unlearnt * (2 * n + 3) + (2 * n + 3) := Nat.add_lt_add_left waiting _
    _ = (s.unlearnt + 1) * (2 * n + 3) := by rw [Nat.add_mul, Nat.one_mul]
    _ ≤ ((3 ^ n + 1) * (3 ^ n + 1)) * (2 * n + 3) := Nat.mul_le_mul_right _ learning
    _ ≤ (2 ^ (2 * n + 1) * 2 ^ (2 * n + 1)) * 2 ^ (n + 2) :=
      Nat.mul_le_mul (Nat.mul_le_mul clauses clauses) steps
    _ = 2 ^ (5 * n + 4) := by
      rw [← Nat.pow_add, ← Nat.pow_add]
      congr 1
      omega
    _ ≤ 2 ^ (5 * n + 9) - 1 := by
      have positive : 0 < 2 ^ (5 * n + 4) := Nat.pow_pos (by decide)
      rw [Nat.pow_add 2 (5 * n) 9, Nat.pow_add 2 (5 * n) 4] at *
      omega

/-- An assembled search starts with the invariant, or with a right answer. -/
theorem start_leads [RandomSource G] {f : Formula} {o : Options} {s : Search G}
    (assembled : s.Assembled f o) (constructed : f.Constructed)
    (represented : f.numVars < literalBound) :
    Leads f o (2 ^ roundBound f.numVars - 1) s.start := by
  obtain ⟨wellFormed, all_input⟩ := constructed.wellFormed
  have trail_eq : s.trail = Trail.empty f.numVars := by cases assembled; rfl
  obtain rfl := assembled.formula_eq
  unfold start
  rw [trail_eq]
  by_cases empty : s.formula.hasEmptyClause = true
  · rw [if_pos empty]
    exact not_satisfiable_of_hasEmptyClause empty
  rw [if_neg empty]
  -- The answers that need no step come first.
  by_cases no_clauses : s.formula.isEmpty = true
  · have size_eq : (Array.replicate s.formula.numVars true).size = s.formula.numVars :=
      Array.size_replicate ..
    have made := Model.ofValues_ok (size_eq.symm ▸ represented)
    rw [if_pos no_clauses, made]
    exact solvedBy_of_isEmpty wellFormed no_clauses made size_eq
  rw [if_neg no_clauses]
  have all : s.formula.inputClauses = s.formula.clauses.toList.drop 0 := by
    simp [Formula.inputClauses, all_input, Formula.size]
  obtain ⟨trail, ⟨ran, rooted⟩ | ⟨ran, no_model⟩⟩ :=
    assertUnits_ok wellFormed s.formula.inputClauses 0 _ all.symm (.empty s.formula)
  · have coherent := rooted.coherent wellFormed (nonempty_of_hasEmptyClause all_input empty)
    obtain ⟨steady, ready⟩ := assembled.steady all_input coherent rooted.head_eq
    rw [ran]
    exact ⟨⟨steady, ready⟩, toGo_lt { s with trail := trail } .propagate⟩
  · rw [ran]
    exact (Formula.Elaborates.refl all_input).not_satisfiable no_model

end Search

end ClauseLearning
