import ClauseLearning.Proofs.Search.Run

/-!
# Nothing goes wrong in a search

A fault is an index outside its table, or a breach: a relation between trail, clauses and levels
that the search relies on and that does not hold. The invariant excludes both.

Main statement: strategies can be made for every formula, no search that is assembled from them
fails, and in all its states the places held by trail, watch lists and analyser are those of stored
clauses.
-/

namespace ClauseLearning

namespace Search

variable {G : Type}

/-- The places that a search holds when it goes on are those of stored clauses: the reasons on the
trail, the watch lists, the clause in conflict, and the clauses that its analysis uses. -/
structure PlacesStored (s : Search G) (control : Control) : Prop where
  reason_lt : ∀ {i place : Nat} {step : Step}, s.trail.steps[i]? = some step →
    step.reason = .clause place → place < s.formula.size
  watched_lt : ∀ {w : Watches}, s.propagator.watches? = some w → ∀ places ∈ w.lists,
    ∀ place ∈ places, place < s.formula.size
  conflict_lt : ∀ {place : Nat}, control = .conflict place → place < s.formula.size
  resolved_lt : ∀ {place : Nat} {a : Analyser} {conflict : Except Breach Conflict},
    control = .conflict place → s.analyser.analyse s.formula s.trail place = .ok (a, conflict) →
      ∀ used ∈ a.resolved, used < s.formula.size

theorem Invariant.interrupted {base : Formula} {o : Options} {s : Search G} {control : Control}
    (invariant : s.Invariant base o control) : s.propagator.Interrupted s.formula s.trail := by
  cases control with
  | propagate => exact Propagator.Ready.interrupted invariant.at_control
  | conflict place => exact invariant.at_control.1
  | decide => exact invariant.at_control.1.interrupted

theorem Invariant.placesStored {base : Formula} {o : Options} {s : Search G} {control : Control}
    (invariant : s.Invariant base o control) : s.PlacesStored control := by
  have coherent := invariant.steady.coherent
  refine ⟨?_, ?_, ?_, ?_⟩
  · intro i place step at_i reason
    obtain ⟨ls, found, _⟩ := coherent.justified at_i reason
    exact Formula.lt_size_of_literalsAt found
  · intro w watching places listed place member
    have interrupted := invariant.interrupted
    cases propagator : s.propagator with
    | scan n => simp [propagator, Propagator.watches?] at watching
    | watched lists n =>
      rw [propagator] at watching interrupted
      cases watching
      exact interrupted.1.place_lt listed member
  · rintro place rfl
    obtain ⟨_, ls, found, _⟩ := invariant.at_control
    exact Formula.lt_size_of_literalsAt found
  · rintro place a conflict rfl analysed used member
    obtain ⟨_, ls, found, refuted⟩ := invariant.at_control
    -- At level 0 the analysis uses no clause.
    by_cases root : s.trail.level = 0
    · rw [Analyser.analyse_root root] at analysed
      cases analysed
      simp at member
    · obtain ⟨next, _, _, _, _, _, ran, _, _, _, _, finished⟩ :=
        Analyser.analyse_of_coherent coherent found refuted (Nat.pos_of_ne_zero root)
          invariant.steady.clear
      rw [ran] at analysed
      cases analysed
      exact finished.resolved_lt used member

/-- Strategies can be made, a search that is assembled from them never fails, and it holds only
places of stored clauses. -/
theorem never_fails [RandomSource G] {f : Formula} (o : Options) (clock : Nat → Bool)
    (constructed : f.Constructed) (represented : f.numVars < literalBound) :
    (∀ kinds, ∃ s : Search G, build f o kinds = .ok s) ∧
    ∀ s : Search G, s.Assembled f o →
      (∀ fault, (s.solveAgainst clock).2 ≠ .failed fault) ∧
      ∀ control next, Reachable clock s control next →
        (∀ fault, (next.step clock control).2 ≠ .failed fault) ∧ next.PlacesStored control := by
  have wellFormed := constructed.wellFormed.1
  refine ⟨fun kinds => build_ok o kinds wellFormed, fun s assembled => ⟨?_, ?_⟩⟩
  · intro fault failed
    obtain ⟨verdict, ran, _⟩ := solveAgainst_answers clock assembled constructed represented
    rw [ran] at failed
    cases failed
  -- A step that leads anywhere has not failed.
  · intro control next reachable
    have invariant := reachable.invariant assembled constructed represented
    refine ⟨fun fault failed => ?_, invariant.placesStored⟩
    have leads := (step_moves wellFormed represented clock invariant).leads invariant
    cases stepped : next.step clock control with
    | mk after progress =>
      rw [stepped] at leads failed
      cases failed
      exact leads

/-- Two decisions may be needed before anything follows, and the variables are picked at random. -/
theorem never_fails_undecided :
    ∃ f, Formula.withVars 3 [[1, 2, 3], [-1, -2, -3]] = .ok f ∧
      ∃ s : Search, build f Options.standard
        { Strategies.standard with branching := .random } = .ok s ∧
        ∀ fault, s.solve.2 ≠ .failed fault := by
  have constructed := @Formula.Constructed.withVars _ 3 [[1, 2, 3], [-1, -2, -3]] rfl
  obtain ⟨builds, safe⟩ :=
    never_fails (G := Generator) Options.standard (fun _ => false) constructed (by decide)
  obtain ⟨s, built⟩ := builds { Strategies.standard with branching := .random }
  exact ⟨_, rfl, s, built, (safe s (assembled_of_build built)).1⟩

end Search

end ClauseLearning
