import ClauseLearning.Proofs.Search.States

/-!
# What a search shows of its model

An answer `sat` carries a model. The search itself can be looked at too: it has an assignment, which
reads as a model, and a trail.

Main statement: the search shows the model of its answer, with a value for every variable and one
step of the trail for each, whenever the formula has a clause. A formula without clauses is answered
before anything has been assigned, so that nothing is shown unless there are no variables either.
-/

namespace ClauseLearning.Search

variable {G : Type} {f : Formula} {o : Options} {s last : Search G} {n : Nat} {m : Model}
  {clock : Nat → Bool} {control : Control}

/-- Assignment and trail of a search over `n` variables agree with a model. -/
structure Shows (s : Search G) (n : Nat) (m : Model) : Prop where
  solutions_eq : s.solutions = .ok m
  assigned : ∀ v, 0 < v → v ≤ n → ∃ b, s.trail.values.value? v = some b
  size_eq : s.trail.size = n
  literals : (s.trail.steps.toList.map fun step => step.literal.toInt).Perm m.literals.toList

/-- What is shown depends on the trail alone, and not on what is remembered beside it. -/
theorem Shows.of_same (shows : s.Shows n m) (trail_eq : last.trail = s.trail) :
    last.Shows n m := by
  obtain ⟨solutions_eq, assigned, size_eq, literals⟩ := shows
  unfold solutions at solutions_eq
  rw [← trail_eq] at solutions_eq assigned size_eq literals
  exact ⟨solutions_eq, assigned, size_eq, literals⟩

/-- An orderly and full trail shows the model of its values. -/
theorem Steady.shows (steady : s.Steady f o) (full : s.trail.values.allAssigned = true)
    (made : s.solutions = .ok m) : s.Shows f.numVars m := by
  have valid := steady.coherent.valid
  rw [steady.elaborates.numVars_eq] at valid
  have size_eq := valid.allAssigned_iff.1 full
  refine ⟨made, fun v positive declared => ?_, size_eq, Trail.perm_of_model valid size_eq made⟩
  exact Option.ne_none_iff_exists'.1 (valid.allAssigned_iff_forall.1 full v positive declared)

/-- Where nothing has been assigned every variable reads as false. -/
theorem model_empty (n : Nat) :
    (Assignment.empty n).model = Model.ofValues (Array.replicate n false) := by
  simp [Assignment.model, Assignment.empty]

/-- The empty trail shows a model only if there are no variables. -/
theorem shows_iff_of_trail_eq (trail_eq : s.trail = Trail.empty n)
    (made : Model.ofValues (Array.replicate n true) = .ok m) : s.Shows n m ↔ n = 0 := by
  constructor
  · intro shows
    rw [← shows.size_eq, trail_eq]
    rfl
  · rintro rfl
    have m_eq : m = ⟨#[]⟩ := (Except.ok.inj made).symm
    subst m_eq
    refine ⟨?_, fun v positive declared => absurd positive (Nat.not_lt.2 declared), ?_, ?_⟩
    · rw [solutions, trail_eq]
      exact model_empty 0
    · rw [trail_eq]
      rfl
    · rw [trail_eq]
      exact .nil

variable [RandomSource G]

/-- A search that has taken steps shows the model of its answer. -/
theorem shows_of_start_next {first : Search G} (clock : Nat → Bool) (assembled : s.Assembled f o)
    (constructed : f.Constructed) (represented : f.numVars < literalBound)
    (started : s.start = (first, .next control))
    (answered : (s.solveAgainst clock).2 = .verdict (.sat m)) :
    (s.solveAgainst clock).1.Shows f.numVars m := by
  obtain ⟨final, mid, last, verdict, reachable, stepped, ended⟩ :=
    solveAgainst_ends clock assembled constructed represented started
  rw [ended] at answered ⊢
  cases answered
  have invariant := reachable.invariant assembled constructed represented
  have moves := step_moves constructed.wellFormed.1 represented clock invariant
  rw [stepped] at moves
  have steady := moves.steady invariant.steady
  -- A model ends the search only after a propagation that has left no variable free.
  cases step_ends stepped with
  | solved full made => exact (steady.shows full made).of_same rfl

/-- After an answer `sat` the search shows the model of the answer if the formula has a clause or
has no variables, and not otherwise. -/
theorem shows_model_iff (clock : Nat → Bool) (assembled : s.Assembled f o)
    (constructed : f.Constructed) (represented : f.numVars < literalBound)
    (answered : (s.solveAgainst clock).2 = .verdict (.sat m)) :
    (s.solveAgainst clock).1.Shows f.numVars m ↔ f.isEmpty = false ∨ f.numVars = 0 := by
  have formula_eq := assembled.formula_eq
  have trail_eq : s.trail = Trail.empty f.numVars := by cases assembled; rfl
  have begins := s.start_begins
  cases started : s.start with
  | mk first progress =>
    rw [started] at begins
    cases progress with
    | next control =>
      -- Steps are taken only where some clause is there.
      have shows := shows_of_start_next clock assembled constructed represented started answered
      cases begins with
      | rooted inhabited _ =>
        rw [formula_eq] at inhabited
        exact iff_of_true shows (.inl inhabited)
    | done verdict =>
      rw [solveAgainst_eq_after clock assembled.fresh, started] at answered ⊢
      cases answered
      -- The answer comes from the formula alone, so the trail is still the empty one.
      cases begins with
      | trivial empty made =>
        rw [formula_eq] at empty made
        have shown := shows_iff_of_trail_eq trail_eq made
        rw [empty, ← shown]
        simp only [Bool.true_eq_false, false_or]
        exact ⟨fun shows => shows.of_same rfl, fun shows => shows.of_same rfl⟩
    | failed fault =>
      rw [solveAgainst_eq_after clock assembled.fresh, started] at answered
      cases answered

/-- Two variables are decided, one of them without being used, and the third one follows. -/
theorem shows_model_iff_decided :
    ∃ f, Formula.withVars 3 [[1, 2], [-1, -2]] = .ok f ∧
      ∃ s : Search, build f Options.standard Strategies.plain = .ok s ∧
        s.solve.2 = .verdict (.sat ⟨#[1, -2, 3]⟩) ∧ s.solve.1.Shows 3 ⟨#[1, -2, 3]⟩ := by
  refine ⟨_, rfl, _, rfl, ?_, ?_⟩
  · decide +kernel
  · exact (shows_model_iff (fun _ => false)
      (@assembled_of_build Generator _ _ Options.standard Strategies.plain _ rfl)
      (@Formula.Constructed.withVars _ 3 [[1, 2], [-1, -2]] rfl) (by decide)
      (by decide +kernel)).2 (.inl rfl)

/-- Without clauses a variable is true in the answer, but it has no value in the search: there it
reads as false, and the trail has no steps. -/
theorem unassigned_after_sat :
    ∃ f, Formula.withVars 1 [] = .ok f ∧
      ∃ s : Search, build f Options.standard Strategies.standard = .ok s ∧
        s.solve.2 = .verdict (.sat ⟨#[1]⟩) ∧ s.solve.1.solutions = .ok ⟨#[-1]⟩ ∧
        s.solve.1.trail.values.value? 1 = none ∧ s.solve.1.trail.size = 0 ∧
        ¬s.solve.1.Shows 1 ⟨#[1]⟩ := by
  refine ⟨_, rfl, _, rfl, by decide +kernel, by decide +kernel, by decide +kernel,
    by decide +kernel, fun shows => ?_⟩
  have size_eq := shows.size_eq
  revert size_eq
  decide +kernel

end ClauseLearning.Search
