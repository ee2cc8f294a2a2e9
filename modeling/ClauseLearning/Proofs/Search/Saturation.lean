import ClauseLearning.Proofs.Propagation.Closure
import ClauseLearning.Proofs.Search.Run

/-!
# Propagation in a search

Whenever a search propagates, formula and trail alone settle what comes out, so the choice of a
propagator cannot be seen from the outcome. The invariant of the search gives its propagator what it
needs, and a scan needs no more than watched literals do.

Main statement: every propagation of a search saturates the trail. A scan in its place has the same
outcome, and so has the propagation of any search with the same clauses and literals.
-/

namespace ClauseLearning

/-- Wherever a propagator can be run, a scan can. -/
theorem Propagator.Ready.scan {f : Formula} {t : Trail} {p : Propagator} (ready : p.Ready f t)
    (coherent : t.Coherent f) (n : Nat) : (Propagator.scan n).Ready f t := by
  cases p with
  | watched w m => exact ready.2.closedAt coherent
  | scan m => exact ready

namespace Search

/-- What a search has at hand when it propagates: its propagator, trail and formula. -/
inductive Calls : Propagator → Trail → Formula → Prop where
  | of_reachable {G : Type} [RandomSource G] {clock : Nat → Bool} {base : Formula} {o : Options}
      {s mid : Search G}
      (assembled : s.Assembled base o) (constructed : base.Constructed)
      (represented : base.numVars < literalBound)
      (reachable : Reachable clock s .propagate mid) :
      Calls mid.propagator mid.trail mid.formula

theorem Calls.coherent {p : Propagator} {t : Trail} {f : Formula} (calls : Calls p t f) :
    t.Coherent f := by
  obtain ⟨assembled, constructed, represented, reachable⟩ := calls
  exact (reachable.invariant assembled constructed represented).steady.coherent

theorem Calls.ready {p : Propagator} {t : Trail} {f : Formula} (calls : Calls p t f) :
    p.Ready f t := by
  obtain ⟨assembled, constructed, represented, reachable⟩ := calls
  exact (reachable.invariant assembled constructed represented).at_control

/-- Whenever a search propagates, its trail becomes the unit closure, or a clause is refuted. A scan
of the same formula and trail has the same outcome, and so has any other propagation of a search on
the same clauses and literals. -/
theorem propagate_saturates {p : Propagator} {t : Trail} {f : Formula} (calls : Calls p t f) :
    ∃ q next g conflict, p.propagate t f = .ok (q, next, g, conflict) ∧
      Saturates f t g next conflict ∧
      (∀ n, ∃ r other h otherConflict,
        (Propagator.scan n).propagate t f = .ok (r, other, h, otherConflict) ∧
          Saturates f t h other otherConflict ∧ SameOutcome next conflict other otherConflict) ∧
      ∀ {p' : Propagator} {u : Trail} {f' : Formula}, Calls p' u f' → f.SameClauses f' →
        (∀ l, t.Holds l ↔ u.Holds l) → ∃ r other h otherConflict,
          p'.propagate u f' = .ok (r, other, h, otherConflict) ∧
            SameOutcome next conflict other otherConflict := by
  have coherent := calls.coherent
  obtain ⟨q, next, g, conflict, ran, propagates, _⟩ :=
    Propagator.propagate_ok coherent calls.ready
  refine ⟨q, next, g, conflict, ran, propagates.saturates coherent, fun n => ?_, ?_⟩
  · obtain ⟨r, other, h, otherConflict, ran_scan, scans, _⟩ :=
      Propagator.propagate_ok coherent (calls.ready.scan coherent n)
    exact ⟨r, other, h, otherConflict, ran_scan, scans.saturates coherent,
      propagates.sameOutcome scans coherent coherent (.refl f) fun _ => Iff.rfl⟩
  · intro p' u f' calls' same holds_iff
    obtain ⟨r, other, h, otherConflict, ran', propagates', _⟩ :=
      Propagator.propagate_ok calls'.coherent calls'.ready
    exact ⟨r, other, h, otherConflict, ran',
      propagates.sameOutcome propagates' coherent calls'.coherent same holds_iff⟩

/-- The first decision is propagated, by watched literals and by a scan. -/
theorem propagate_saturates_decided :
    ∃ f, Formula.withVars 3 [[1, 2], [-1, -2]] = .ok f ∧
      ∃ s : Search,
        build f Options.standard { Strategies.plain with propagator := .watched } = .ok s ∧
        ∃ mid, Reachable (fun _ => false) s .propagate mid ∧ mid.trail.head = 0 ∧
          mid.trail.size = 1 ∧ ∃ q next g conflict,
            mid.propagator.propagate mid.trail mid.formula = .ok (q, next, g, conflict) ∧
            Saturates mid.formula mid.trail g next conflict ∧ ∃ r other h otherConflict,
              (Propagator.scan 0).propagate mid.trail mid.formula =
                .ok (r, other, h, otherConflict) ∧
              SameOutcome next conflict other otherConflict := by
  have run : ∃ f, Formula.withVars 3 [[1, 2], [-1, -2]] = .ok f ∧ f.numVars < literalBound ∧
      ∃ s : Search,
        build f Options.standard { Strategies.plain with propagator := .watched } = .ok s ∧
        ∃ mid, Reachable (fun _ => false) s .propagate mid ∧ mid.trail.head = 0 ∧
          mid.trail.size = 1 :=
    ⟨_, rfl, by decide, _, rfl, _,
      @reachable_of_progress _ _ _ _ 2 .propagate _ (by decide +kernel) (by decide +kernel),
      by decide +kernel, by decide +kernel⟩
  obtain ⟨f, made, represented, s, built, mid, reachable, none_done, size_eq⟩ := run
  obtain ⟨q, next, g, conflict, ran, saturates, scans, _⟩ := propagate_saturates
    (.of_reachable (assembled_of_build built) (.withVars made) represented reachable)
  obtain ⟨r, other, h, otherConflict, ran_scan, _, sameOutcome⟩ := scans 0
  exact ⟨f, made, s, built, mid, reachable, none_done, size_eq, q, next, g, conflict, ran,
    saturates, r, other, h, otherConflict, ran_scan, sameOutcome⟩

end Search

end ClauseLearning
