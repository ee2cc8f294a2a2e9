import ClauseLearning.Proofs.Analysis.Resolution

/-!
# An analyser can be used again

The marks of an analyser are scratch: each analysis sets some and clears them when it ends. Clearing
goes through the variables that have been noted, so what has to hold at each way out is that no
marked variable has been left unnoted. This needs nothing of the trail or the clauses, which may be
in any disorder: a variable is noted in the moment in which it is marked, and notes are never taken
back.

Main statement: whatever an analysis has come to, it leaves no mark behind. So an analyser that is
used for one analysis after another gives each time what a new one would give.
-/

namespace ClauseLearning

namespace Analyser

theorem Tracks.mark {a : Analyser} {size : Nat} {v : Variable} {marks : Array Bool}
    (tracks : a.Tracks size) (stored : store a.marks v true = .ok marks) :
    (a.marking marks v).Tracks size where
  size_eq := (size_of_store stored).trans tracks.size_eq
  noted := by
    intro u marked
    change marks[u]? = some true at marked
    rw [getElem?_of_store stored] at marked
    split at marked
    next same => exact same ▸ Array.mem_push_self
    next => exact Array.mem_push_of_mem _ (tracks.noted marked)

end Analyser

namespace Walk

variable {f : Formula} {t : Trail} {size : Nat} {pivot : Option Variable}

/-! ### What the walk does to the marks -/

theorem tracks_absorb {w next : Walk} {q : Literal} (tracks : w.analyser.Tracks size)
    (ran : w.absorb t pivot q = .ok next) : next.analyser.Tracks size := by
  rcases absorb_cases ran with ⟨rfl, _⟩ | ⟨_, _, _, marks, stored, marking⟩
  · exact tracks
  · rw [marking]
    exact tracks.mark stored

theorem tracks_absorbAll {next : Walk} (ls : List Literal) :
    ∀ w : Walk, w.analyser.Tracks size → absorbAll t pivot ls w = .ok next →
      next.analyser.Tracks size := by
  induction ls with
  | nil =>
    intro w tracks ran
    cases ran
    exact tracks
  | cons q rest ih =>
    intro w tracks ran
    unfold absorbAll at ran
    cases first : w.absorb t pivot q with
    | error fault => simp [first] at ran
    | ok mid =>
      rw [first] at ran
      exact ih mid (tracks_absorb tracks first) ran

theorem tracks_resolveWith {w next : Walk} {place : Nat} (tracks : w.analyser.Tracks size)
    (ran : w.resolveWith f t place pivot = .ok next) : next.analyser.Tracks size := by
  obtain ⟨c, _, absorbed⟩ := bind_eq_ok.1 ran
  have started : { w.analyser with resolved := w.analyser.resolved.push place }.Tracks size :=
    ⟨tracks.size_eq, tracks.noted⟩
  exact tracks_absorbAll c.literals _ started absorbed

/-- A mark that is cleared on the way leaves a note behind that is not needed. -/
theorem tracks_release {w : Walk} {l : Literal} (tracks : w.analyser.Tracks size) :
    (w.release l).analyser.Tracks size where
  size_eq := (Array.size_setIfInBounds ..).trans tracks.size_eq
  noted := by
    intro v marked
    simp only [release, Array.getElem?_setIfInBounds] at marked
    split at marked
    next => split at marked <;> simp at marked
    next => exact tracks.noted marked

/-- The walk may end anywhere, with or without a breach. -/
theorem tracks_back {next : Walk} {outcome : Except Breach Literal} (n : Nat) :
    ∀ w : Walk, w.analyser.Tracks size → back f t n w = .ok (next, outcome) →
      next.analyser.Tracks size := by
  induction n with
  | zero =>
    intro w tracks ran
    cases ran
    exact tracks
  | succ n ih =>
    intro w tracks ran
    unfold back at ran
    obtain ⟨s, _, ran⟩ := bind_eq_ok.1 ran
    obtain ⟨marked, _, ran⟩ := bind_eq_ok.1 ran
    split at ran
    next => exact ih w tracks ran
    next =>
      have released := @tracks_release size w s.literal tracks
      dsimp only at ran
      split at ran
      next =>
        cases ran
        exact released
      next =>
        obtain ⟨reason, _, ran⟩ := bind_eq_ok.1 ran
        split at ran
        next =>
          cases ran
          exact released
        next place =>
          obtain ⟨mid, resolved, ran⟩ := bind_eq_ok.1 ran
          have tracks_mid := tracks_resolveWith released resolved
          split at ran
          next =>
            cases ran
            exact tracks_mid
          next => exact ih mid tracks_mid ran

theorem tracks_run {w next : Walk} {place : Nat} {outcome : Except Breach Literal}
    (tracks : w.analyser.Tracks size) (ran : run f t place w = .ok (next, outcome)) :
    next.analyser.Tracks size := by
  unfold run at ran
  obtain ⟨mid, resolved, ran⟩ := bind_eq_ok.1 ran
  have tracks_mid := tracks_resolveWith tracks resolved
  split at ran
  next =>
    cases ran
    exact tracks_mid
  next => exact tracks_back t.size mid tracks_mid ran

end Walk

namespace Analyser

/-! ### Whole analyses -/

/-- No mark is left, by whichever way the analysis has ended. -/
theorem unmarked_of_analyse {a next : Analyser} {f : Formula} {t : Trail} {place : Nat}
    {result : Except Breach Conflict} (unmarked : ∀ v : Variable, a.marks[v]? ≠ some true)
    (ran : a.analyse f t place = .ok (next, result)) :
    next.marks.size = a.marks.size ∧ ∀ v : Variable, next.marks[v]? ≠ some true := by
  unfold analyse at ran
  split at ran
  -- At level 0 nothing gets marked.
  next =>
    cases ran
    exact ⟨rfl, unmarked⟩
  -- Otherwise there may be marks at the end of the walk, and every way out clears the noted ones.
  next =>
    obtain ⟨⟨w, outcome⟩, walked, ran⟩ := bind_eq_ok.1 ran
    have tracks : w.analyser.Tracks a.marks.size :=
      Walk.tracks_run ⟨rfl, fun marked => absurd marked (unmarked _)⟩ walked
    cases outcome with
    | error breach =>
      cases ran
      exact tracks.cleared
    | ok l =>
      obtain ⟨others, _, ran⟩ := bind_eq_ok.1 ran
      obtain ⟨conflict, _, ran⟩ := bind_eq_ok.1 ran
      cases ran
      exact tracks.cleared

/-- Marks are all that an analysis takes over from the one before. -/
theorem analyse_congr {a b : Analyser} (same : a.marks = b.marks) (f : Formula) (t : Trail)
    (place : Nat) : a.analyse f t place = b.analyse f t place := by
  simp only [analyse, same]

theorem marks_eq_of_unmarked {a : Analyser} {n : Nat} (size_eq : a.marks.size = n + 1)
    (unmarked : ∀ v : Variable, a.marks[v]? ≠ some true) : a.marks = (empty n).marks := by
  refine Array.ext (by simp [empty, size_eq]) fun v inside _ => ?_
  have off := unmarked v
  rw [Array.getElem?_eq_getElem inside, ne_eq, Option.some.injEq, Bool.not_eq_true] at off
  simp [empty, off]

/-- Analyses one conflict after another, each given by formula, trail and place of the clause. The
result of each analysis comes with the analyser that the next one is made with. -/
def analyseEach (a : Analyser) :
    List (Formula × Trail × Nat) → Except Fault (List (Analyser × Except Breach Conflict))
  | [] => .ok []
  | (f, t, place) :: rest => do
    let (next, result) ← a.analyse f t place
    let others ← next.analyseEach rest
    return (next, result) :: others

theorem analyseEach_eq_mapM {n : Nat} (calls : List (Formula × Trail × Nat)) :
    ∀ a : Analyser, a.marks.size = n + 1 → (∀ v : Variable, a.marks[v]? ≠ some true) →
      a.analyseEach calls = calls.mapM fun call => (empty n).analyse call.1 call.2.1 call.2.2 := by
  induction calls with
  | nil => exact fun a _ _ => rfl
  | cons call rest ih =>
    intro a size_eq unmarked
    obtain ⟨f, t, place⟩ := call
    have first := analyse_congr (marks_eq_of_unmarked size_eq unmarked) f t place
    rw [List.mapM_cons, analyseEach, first]
    cases ran : (empty n).analyse f t place with
    | error fault => rfl
    | ok outcome =>
      obtain ⟨next, result⟩ := outcome
      -- The next analysis begins without marks as well.
      obtain ⟨size_next, unmarked_next⟩ := unmarked_of_analyse unmarked (first.trans ran)
      simp only [ok_bind, ih next (size_next.trans size_eq) unmarked_next]

/-- An analysis that begins without marks ends without marks, on any formula, trail and clause and
with or without a breach. Analyses made one after another with one analyser give the conclusions,
breaches, notes and resolved clauses that each of them would give with a new one. -/
theorem analyse_leaves_no_trace {a : Analyser}
    (unmarked : ∀ v : Variable, a.marks[v]? ≠ some true) :
    (∀ {f : Formula} {t : Trail} {place : Nat} {next : Analyser} {result : Except Breach Conflict},
      a.analyse f t place = .ok (next, result) →
        next.marks.size = a.marks.size ∧ ∀ v : Variable, next.marks[v]? ≠ some true) ∧
    ∀ {n : Nat}, a.marks.size = n + 1 → ∀ calls : List (Formula × Trail × Nat),
      a.analyseEach calls = calls.mapM fun call => (empty n).analyse call.1 call.2.1 call.2.2 :=
  ⟨unmarked_of_analyse unmarked, fun size_eq calls =>
    analyseEach_eq_mapM calls a size_eq unmarked⟩

/-- The first trail has both variables of the clause at level 1 and not at its own, which is a
breach; they have been marked by then. The next analysis marks them again. -/
theorem analyse_leaves_no_trace_breach :
    ∃ f g, Formula.withVars 3 [[1, 2]] = .ok f ∧ Formula.withVars 3 [[-1, 2], [-1, -2]] = .ok g ∧
      ∃ (t u : Trail) (first second : Analyser),
        (empty 3).analyseEach [(f, t, 0), (g, u, 1)] =
          .ok [(first, .error (.noLiteralAtLevel 0 2)), (second, .ok (.unit ⟨1, false⟩))] ∧
        first.involved = #[1, 2] ∧ (∀ v : Variable, first.marks[v]? ≠ some true) ∧
        second.involved = #[1, 2] ∧
        (empty 3).analyse g u 1 = .ok (second, .ok (.unit ⟨1, false⟩)) := by
  have runs : ∃ f g, Formula.withVars 3 [[1, 2]] = .ok f ∧
      Formula.withVars 3 [[-1, 2], [-1, -2]] = .ok g ∧
      ∃ (t u : Trail) (first second : Analyser),
        (empty 3).analyse f t 0 = .ok (first, .error (.noLiteralAtLevel 0 2)) ∧
        first.involved = #[1, 2] ∧
        (empty 3).analyse g u 1 = .ok (second, .ok (.unit ⟨1, false⟩)) ∧
        second.involved = #[1, 2] :=
    ⟨_, _, rfl, rfl,
      { steps := #[⟨⟨1, false⟩, 1, .decision⟩, ⟨⟨2, false⟩, 1, .clause 0⟩,
          ⟨⟨3, true⟩, 2, .decision⟩]
        head := 3
        levelOf := #[0, 1, 1, 2]
        positionOf := #[0, 0, 1, 2]
        levelStarts := #[0, 2]
        values := ⟨#[none, some false, some false, some true], 3⟩ },
      { steps := #[⟨⟨1, true⟩, 1, .decision⟩, ⟨⟨2, true⟩, 1, .clause 0⟩]
        head := 1
        levelOf := #[0, 1, 1, 0]
        positionOf := #[0, 0, 1, 0]
        levelStarts := #[0]
        values := ⟨#[none, some true, some true, none], 2⟩ },
      _, _, rfl, rfl, rfl, rfl⟩
  obtain ⟨f, g, made_f, made_g, t, u, first, second, breach, noted, learnt, again⟩ := runs
  obtain ⟨left, each⟩ := analyse_leaves_no_trace (clear_empty 3).unmarked
  refine ⟨f, g, made_f, made_g, t, u, first, second, ?_, noted, (left breach).2, again, learnt⟩
  rw [each (clear_empty 3).size_eq]
  simp [breach, learnt]

end Analyser

end ClauseLearning
