import ClauseLearning.Trail
import Mathlib.Data.Finset.Card
import Mathlib.Order.Interval.Finset.Nat

/-!
# Valid trails

The steps of a trail are the facts; the tables of values, levels and positions and the starts of the
levels are kept beside them. A trail is valid when they agree. Entries of the tables that belong to
unassigned variables may be anything.

Main statements: under a valid trail a literal has a value exactly when it or its complement is on
the trail, no variable is on the trail twice, and a trail that does not cover all variables leaves
one of them without a value.
-/

namespace ClauseLearning.Trail

/-- A literal is on the trail. -/
def Holds (t : Trail) (l : Literal) : Prop :=
  ∃ (i : Nat) (s : Step), t.steps[i]? = some s ∧ s.literal = l

/-- A literal is on the trail, at a level of at most `k`. -/
def HoldsBy (t : Trail) (k : Nat) (l : Literal) : Prop :=
  ∃ (i : Nat) (s : Step), t.steps[i]? = some s ∧ s.literal = l ∧ s.level ≤ k

/-- A literal is on the trail, before position `n`. -/
def HoldsBefore (t : Trail) (n : Nat) (l : Literal) : Prop :=
  ∃ (i : Nat) (s : Step), i < n ∧ t.steps[i]? = some s ∧ s.literal = l

theorem HoldsBy.holds {t : Trail} {k : Nat} {l : Literal} (holds : t.HoldsBy k l) : t.Holds l := by
  obtain ⟨i, s, at_i, rfl, _⟩ := holds
  exact ⟨i, s, at_i, rfl⟩

theorem HoldsBefore.holds {t : Trail} {n : Nat} {l : Literal} (holds : t.HoldsBefore n l) :
    t.Holds l := by
  obtain ⟨i, s, _, at_i, rfl⟩ := holds
  exact ⟨i, s, at_i, rfl⟩

theorem HoldsBy.mono {t : Trail} {k m : Nat} {l : Literal} (holds : t.HoldsBy k l) (le : k ≤ m) :
    t.HoldsBy m l := by
  obtain ⟨i, s, at_i, rfl, level⟩ := holds
  exact ⟨i, s, at_i, rfl, Nat.le_trans level le⟩

theorem lt_size {t : Trail} {i : Nat} {s : Step} (at_i : t.steps[i]? = some s) : i < t.size :=
  (Array.getElem?_eq_some_iff.1 at_i).1

/-- The tables of levels and positions agree with the steps, whose variables are at most `n`. -/
structure Located (t : Trail) (n : Nat) : Prop where
  declared : ∀ {i : Nat} {s : Step}, t.steps[i]? = some s → s.literal.var ≤ n
  levelOf : ∀ {i : Nat} {s : Step}, t.steps[i]? = some s → t.levelOf[s.literal.var]? = some s.level
  positionOf : ∀ {i : Nat} {s : Step}, t.steps[i]? = some s →
    t.positionOf[s.literal.var]? = some i

/-- All tables agree with the steps, for the variables `1, …, n`. -/
structure Recorded (t : Trail) (n : Nat) : Prop extends Located t n where
  levelOf_size : t.levelOf.size = n + 1
  positionOf_size : t.positionOf.size = n + 1
  slots_size : t.values.slots.size = n + 1
  count_eq : t.values.numAssigned = t.size
  positive : ∀ {i : Nat} {s : Step}, t.steps[i]? = some s → 0 < s.literal.var
  slot : ∀ {i : Nat} {s : Step}, t.steps[i]? = some s →
    t.values.slots[s.literal.var]? = some (some s.literal.polarity)
  assigned : ∀ {v : Variable} {b : Bool}, t.values.slots[v]? = some (some b) → t.Holds ⟨v, b⟩

/-- Levels start where they are said to, each with a decision, and there are no other decisions. -/
structure Layered (t : Trail) : Prop where
  level_le : ∀ {i : Nat} {s : Step}, t.steps[i]? = some s → s.level ≤ t.level
  start_le_iff : ∀ {k p i : Nat} {s : Step}, t.levelStarts[k]? = some p → t.steps[i]? = some s →
    (p ≤ i ↔ k < s.level)
  start : ∀ {k p : Nat}, t.levelStarts[k]? = some p →
    ∃ s : Step, t.steps[p]? = some s ∧ s.reason = .decision ∧ s.level = k + 1
  decision : ∀ {i : Nat} {s : Step}, t.steps[i]? = some s → s.reason = .decision →
    ∃ k, s.level = k + 1 ∧ t.levelStarts[k]? = some i

/-- A trail over the variables `1, …, n` whose tables and levels are in order. -/
structure Valid (t : Trail) (n : Nat) : Prop extends Recorded t n, Layered t where
  head_le : t.head ≤ t.size

/-- What of a valid trail can be known without looking at the values. -/
structure Charted (t : Trail) (n : Nat) : Prop extends Located t n, Layered t

theorem Valid.charted {t : Trail} {n : Nat} (valid : t.Valid n) : t.Charted n :=
  { valid.toLocated, valid.toLayered with }

/-! ### Positions -/

theorem Located.position_unique {t : Trail} {n i j : Nat} {s r : Step} (located : t.Located n)
    (at_i : t.steps[i]? = some s) (at_j : t.steps[j]? = some r)
    (same : s.literal.var = r.literal.var) : i = j := by
  have first := located.positionOf at_i
  rw [same, located.positionOf at_j] at first
  exact (Option.some.inj first).symm

theorem Located.step_unique {t : Trail} {n i j : Nat} {s r : Step} (located : t.Located n)
    (at_i : t.steps[i]? = some s) (at_j : t.steps[j]? = some r)
    (same : s.literal.var = r.literal.var) : s = r := by
  have equal := located.position_unique at_i at_j same
  subst equal
  exact Option.some.inj (at_i.symm.trans at_j)

/-- No literal is on the trail together with its complement. -/
theorem Located.not_holds_neg {t : Trail} {n : Nat} {l : Literal} (located : t.Located n)
    (holds : t.Holds l) : ¬t.Holds (-l) := by
  rintro ⟨j, r, at_j, complement⟩
  obtain ⟨i, s, at_i, rfl⟩ := holds
  have same : s.literal.var = r.literal.var := by rw [complement, Literal.neg_var]
  have equal := located.step_unique at_i at_j same
  rw [equal] at complement
  exact Literal.neg_ne_self r.literal complement.symm

/-- The level of a literal on the trail decides which levels it holds by. -/
theorem Located.holdsBy_iff {t : Trail} {n i k : Nat} {s : Step} (located : t.Located n)
    (at_i : t.steps[i]? = some s) : t.HoldsBy k s.literal ↔ s.level ≤ k := by
  constructor
  · rintro ⟨j, r, at_j, same, level⟩
    have equal := located.step_unique at_i at_j (by rw [same])
    rwa [equal]
  · intro level
    exact ⟨i, s, at_i, rfl, level⟩

/-- What was false before a step is of another variable than the step. -/
theorem Located.var_ne {t : Trail} {n i : Nat} {s : Step} {q : Literal} (located : t.Located n)
    (at_i : t.steps[i]? = some s) (before : t.HoldsBefore i (-q)) : q.var ≠ s.literal.var := by
  intro same
  obtain ⟨j, r, earlier, at_j, refuted⟩ := before
  have here := located.position_unique at_j at_i (by rw [refuted, Literal.neg_var, same])
  omega

/-! ### Values -/

theorem Recorded.value?_eq_some {t : Trail} {n : Nat} {v : Variable} {b : Bool}
    (recorded : t.Recorded n) : t.values.value? v = some b ↔ t.Holds ⟨v, b⟩ := by
  constructor
  · intro value
    apply recorded.assigned
    unfold Assignment.value? at value
    cases slot : t.values.slots[v]? with
    | none => simp [slot] at value
    | some entry => simpa [slot] using value
  · rintro ⟨i, s, at_i, same⟩
    have slot := recorded.slot at_i
    rw [same] at slot
    simp [Assignment.value?, slot]

theorem Recorded.literalValue?_eq_true {t : Trail} {n : Nat} {l : Literal}
    (recorded : t.Recorded n) : t.values.literalValue? l = some true ↔ t.Holds l := by
  rw [show t.Holds l ↔ t.Holds ⟨l.var, l.polarity⟩ from Iff.rfl, ← recorded.value?_eq_some]
  unfold Assignment.literalValue?
  cases t.values.value? l.var <;> simp

theorem Recorded.literalValue?_eq_false {t : Trail} {n : Nat} {l : Literal}
    (recorded : t.Recorded n) : t.values.literalValue? l = some false ↔ t.Holds (-l) := by
  rw [show t.Holds (-l) ↔ t.Holds ⟨l.var, !l.polarity⟩ from Iff.rfl, ← recorded.value?_eq_some]
  unfold Assignment.literalValue?
  cases t.values.value? l.var with
  | none => simp
  | some b => cases b <;> cases l.polarity <;> simp

theorem Recorded.literalValue?_eq_none {t : Trail} {n : Nat} {l : Literal} (_ : t.Recorded n) :
    t.values.literalValue? l = none ↔ t.values.value? l.var = none := by
  simp [Assignment.literalValue?]

theorem Recorded.value?_eq_none {t : Trail} {n : Nat} {l : Literal} (recorded : t.Recorded n) :
    t.values.value? l.var = none ↔ ¬t.Holds l ∧ ¬t.Holds (-l) := by
  rw [← recorded.literalValue?_eq_none, ← recorded.literalValue?_eq_true,
    ← recorded.literalValue?_eq_false]
  cases t.values.literalValue? l with
  | none => simp
  | some b => cases b <;> simp

/-! ### Counting -/

/-- The variables on the trail. -/
def vars (t : Trail) : Finset Variable :=
  (Finset.range t.size).image fun i => ((t.steps[i]?).map fun s => s.literal.var).getD 0

theorem mem_vars {t : Trail} {v : Variable} :
    v ∈ t.vars ↔ ∃ (i : Nat) (s : Step), t.steps[i]? = some s ∧ s.literal.var = v := by
  simp only [vars, Finset.mem_image, Finset.mem_range]
  constructor
  · rintro ⟨i, inside, rfl⟩
    have at_i : t.steps[i]? = some t.steps[i] := Array.getElem?_eq_getElem inside
    exact ⟨i, t.steps[i], at_i, by simp [at_i]⟩
  · rintro ⟨i, s, at_i, rfl⟩
    exact ⟨i, lt_size at_i, by simp [at_i]⟩

theorem Recorded.card_vars {t : Trail} {n : Nat} (recorded : t.Recorded n) :
    t.vars.card = t.size := by
  rw [vars, Finset.card_image_of_injOn, Finset.card_range]
  intro i inside_i j inside_j same
  simp only [Finset.coe_range, Set.mem_Iio] at inside_i inside_j
  have at_i : t.steps[i]? = some t.steps[i] := Array.getElem?_eq_getElem inside_i
  have at_j : t.steps[j]? = some t.steps[j] := Array.getElem?_eq_getElem inside_j
  simp only [at_i, at_j, Option.map_some, Option.getD_some] at same
  exact recorded.position_unique at_i at_j same

theorem Recorded.vars_subset {t : Trail} {n : Nat} (recorded : t.Recorded n) :
    t.vars ⊆ Finset.Icc 1 n := by
  intro v member
  obtain ⟨i, s, at_i, rfl⟩ := mem_vars.1 member
  exact Finset.mem_Icc.2 ⟨recorded.positive at_i, recorded.declared at_i⟩

theorem Recorded.size_le {t : Trail} {n : Nat} (recorded : t.Recorded n) : t.size ≤ n := by
  have bound := Finset.card_le_card recorded.vars_subset
  rwa [recorded.card_vars, Nat.card_Icc, Nat.add_sub_cancel] at bound

theorem Recorded.value?_isSome {t : Trail} {n : Nat} {v : Variable} (recorded : t.Recorded n) :
    (t.values.value? v).isSome ↔ v ∈ t.vars := by
  rw [Option.isSome_iff_exists, mem_vars]
  constructor
  · rintro ⟨b, value⟩
    obtain ⟨i, s, at_i, same⟩ := recorded.value?_eq_some.1 value
    exact ⟨i, s, at_i, by rw [same]⟩
  · rintro ⟨i, s, at_i, rfl⟩
    exact ⟨s.literal.polarity, recorded.value?_eq_some.2 ⟨i, s, at_i, rfl⟩⟩

/-- A variable without a value on a trail has none on a trail that this one has grown from. -/
theorem Recorded.free_of_keeps {t next : Trail} {n : Nat} {v : Variable} (recorded : t.Recorded n)
    (recorded_next : next.Recorded n)
    (keeps : ∀ {i : Nat} {s : Step}, t.steps[i]? = some s → next.steps[i]? = some s)
    (is_free : next.values.value? v = none) : t.values.value? v = none := by
  cases value : t.values.value? v with
  | none => rfl
  | some b =>
    obtain ⟨i, s, at_i, same⟩ := recorded.value?_eq_some.1 value
    rw [recorded_next.value?_eq_some.2 ⟨i, s, keeps at_i, same⟩] at is_free
    cases is_free

/-- A trail shorter than the number of variables leaves one of them without a value. -/
theorem Recorded.exists_free {t : Trail} {n : Nat} (recorded : t.Recorded n)
    (short : t.size < n) : ∃ v, 0 < v ∧ v ≤ n ∧ t.values.value? v = none := by
  have fewer : t.vars.card < (Finset.Icc 1 n).card := by
    rw [recorded.card_vars, Nat.card_Icc]
    omega
  obtain ⟨v, inside, absent⟩ := Finset.exists_mem_notMem_of_card_lt_card fewer
  rw [Finset.mem_Icc] at inside
  refine ⟨v, inside.1, inside.2, ?_⟩
  rw [← recorded.value?_isSome] at absent
  simpa using absent

/-- A trail as long as the number of variables gives each of them a value. -/
theorem Recorded.value?_isSome_of_full {t : Trail} {n : Nat} {v : Variable}
    (recorded : t.Recorded n) (full : t.size = n) (positive : 0 < v) (declared : v ≤ n) :
    (t.values.value? v).isSome := by
  have all : t.vars = Finset.Icc 1 n := by
    apply Finset.eq_of_subset_of_card_le recorded.vars_subset
    rw [recorded.card_vars, Nat.card_Icc, full]
    omega
  rw [recorded.value?_isSome, all]
  exact Finset.mem_Icc.2 ⟨positive, declared⟩

theorem Recorded.allAssigned_iff {t : Trail} {n : Nat} (recorded : t.Recorded n) :
    t.values.allAssigned = true ↔ t.size = n := by
  simp [Assignment.allAssigned, Assignment.numVars, recorded.count_eq, recorded.slots_size]

/-! ### Levels -/

/-- Levels do not decrease along the trail. -/
theorem Layered.level_mono {t : Trail} {i j : Nat} {s r : Step} (layered : t.Layered)
    (at_i : t.steps[i]? = some s) (at_j : t.steps[j]? = some r) (le : i ≤ j) :
    s.level ≤ r.level := by
  by_contra greater
  have below : r.level < t.level := Nat.lt_of_lt_of_le (by omega) (layered.level_le at_i)
  have found : t.levelStarts[r.level]? = some t.levelStarts[r.level] :=
    Array.getElem?_eq_getElem below
  have started := (layered.start_le_iff found at_i).2 (by omega)
  have later := (layered.start_le_iff found at_j).1 (Nat.le_trans started le)
  omega

/-- A step of a level that is not its first has a clause for its reason. -/
theorem Layered.decision_first {t : Trail} {i j : Nat} {s r : Step} (layered : t.Layered)
    (at_i : t.steps[i]? = some s) (decided : s.reason = .decision) (at_j : t.steps[j]? = some r)
    (same : r.level = s.level) : i ≤ j := by
  obtain ⟨k, level, start⟩ := layered.decision at_i decided
  exact (layered.start_le_iff start at_j).2 (by omega)

theorem Layered.level_pos_of_decision {t : Trail} {i : Nat} {s : Step} (layered : t.Layered)
    (at_i : t.steps[i]? = some s) (decided : s.reason = .decision) : 0 < s.level := by
  obtain ⟨k, level, _⟩ := layered.decision at_i decided
  omega

/-- Levels start, in order, at the positions of the decisions. -/
theorem Layered.levelStarts_iff {t : Trail} {k i : Nat} (layered : t.Layered) :
    t.levelStarts[k]? = some i ↔
      ∃ s, t.steps[i]? = some s ∧ s.reason = .decision ∧ s.level = k + 1 := by
  constructor
  · exact layered.start
  · rintro ⟨s, at_i, decided, level⟩
    obtain ⟨m, level_m, start⟩ := layered.decision at_i decided
    obtain rfl : m = k := by omega
    exact start

/-- A step behind those that have reached level `current` starts the next level, or it is of the
level reached. -/
theorem Layered.level_of_next {t : Trail} {i current : Nat} {s : Step} (layered : t.Layered)
    (reached : ∀ {k p : Nat}, t.levelStarts[k]? = some p → (p < i ↔ k < current))
    (le : current ≤ t.level) (at_i : t.steps[i]? = some s) :
    s.reason = .decision ∧ t.levelStarts[current]? = some i ∧ s.level = current + 1 ∨
      s.reason ≠ .decision ∧ s.level = current := by
  by_cases decided : s.reason = .decision
  · obtain ⟨k, level, start⟩ := layered.decision at_i decided
    -- The level that starts here has not been reached, and all lower ones have.
    have not_before : ¬k < current := fun below => Nat.lt_irrefl _ ((reached start).2 below)
    have not_after : ¬current < k := by
      intro above
      have inside : current < t.level := by
        have top := layered.level_le at_i
        omega
      have found : t.levelStarts[current]? = some t.levelStarts[current] :=
        Array.getElem?_eq_getElem inside
      have started := (layered.start_le_iff found at_i).2 (by omega)
      have different : t.levelStarts[current] ≠ i := by
        intro same
        obtain ⟨r, at_start, _, level_r⟩ := layered.start found
        rw [same, at_i] at at_start
        cases at_start
        omega
      exact absurd ((reached found).1 (by omega)) (Nat.lt_irrefl _)
    obtain rfl : k = current := by omega
    exact .inl ⟨decided, start, level⟩
  · refine .inr ⟨decided, ?_⟩
    -- No level starts here, so the step has the level reached before it.
    have below_iff : ∀ k < t.level, k < s.level ↔ k < current := by
      intro k inside
      have found : t.levelStarts[k]? = some t.levelStarts[k] := Array.getElem?_eq_getElem inside
      have different : t.levelStarts[k] ≠ i := by
        intro same
        obtain ⟨r, at_start, decided_r, _⟩ := layered.start found
        rw [same, at_i] at at_start
        cases at_start
        exact decided decided_r
      rw [← layered.start_le_iff found at_i, ← reached found]
      omega
    have top := layered.level_le at_i
    by_contra different
    rcases Nat.lt_or_gt_of_ne different with low | high
    · exact absurd ((below_iff s.level (by omega)).2 low) (Nat.lt_irrefl _)
    · exact absurd ((below_iff current (by omega)).1 high) (Nat.lt_irrefl _)

theorem Layered.lastLevelFrom_eq {t : Trail} (layered : t.Layered) (rest : List Step) :
    ∀ i current, t.steps.toList.drop i = rest → current ≤ t.level →
      (∀ {k p : Nat}, t.levelStarts[k]? = some p → (p < i ↔ k < current)) →
      lastLevelFrom t.levelStarts i current rest = some t.level := by
  induction rest with
  | nil =>
    intro i current seen le reached
    -- All levels have started before the end of the trail.
    have all : ¬current < t.level := by
      intro above
      have found : t.levelStarts[current]? = some t.levelStarts[current] :=
        Array.getElem?_eq_getElem above
      obtain ⟨s, at_start, _⟩ := layered.start found
      have inside : t.steps.size ≤ i := by simpa using seen
      have before := (reached found).1 (Nat.lt_of_lt_of_le (lt_size at_start) inside)
      exact absurd before (Nat.lt_irrefl _)
    rw [lastLevelFrom, Nat.le_antisymm le (Nat.not_lt.1 all)]
  | cons s rest ih =>
    intro i current drop_eq le reached
    have at_i : t.steps[i]? = some s := by
      have first : (t.steps.toList.drop i)[0]? = some s := by rw [drop_eq]; rfl
      simpa using first
    have later : t.steps.toList.drop (i + 1) = rest := by
      rw [← List.drop_drop, drop_eq]
      rfl
    rcases layered.level_of_next reached le at_i with ⟨decided, start, level⟩ | ⟨forced, level⟩
    · have inside : current < t.level := (Array.getElem?_eq_some_iff.1 start).1
      have go_on := ih (i + 1) (current + 1) later inside fun {k p} found => by
        have below := layered.start_le_iff found at_i
        omega
      simp [lastLevelFrom, decided, start, level, go_on]
    · have go_on := ih (i + 1) current later le fun {k p} found => by
        have below := layered.start_le_iff found at_i
        omega
      simp [lastLevelFrom, forced, level, go_on]

/-- The levels of the steps and the starts of the levels agree. -/
theorem Layered.isConsistent {t : Trail} (layered : t.Layered) : t.isConsistent = true := by
  have all := layered.lastLevelFrom_eq t.steps.toList 0 0 rfl (Nat.zero_le _) fun {k p} _ => by simp
  simp [Trail.isConsistent, all]

/-! ### The empty trail -/

theorem steps_empty (n : Nat) : (Trail.empty n).steps = #[] := rfl

theorem levelStarts_empty (n : Nat) : (Trail.empty n).levelStarts = #[] := rfl

theorem valid_empty (n : Nat) : (Trail.empty n).Valid n where
  levelOf_size := by simp [Trail.empty]
  positionOf_size := by simp [Trail.empty]
  slots_size := by simp [Trail.empty, Assignment.empty]
  count_eq := rfl
  positive at_i := by simp [steps_empty] at at_i
  declared at_i := by simp [steps_empty] at at_i
  slot at_i := by simp [steps_empty] at at_i
  levelOf at_i := by simp [steps_empty] at at_i
  positionOf at_i := by simp [steps_empty] at at_i
  assigned slot := by
    simp [Trail.empty, Assignment.empty, Array.getElem?_replicate] at slot
  head_le := Nat.le_refl 0
  level_le at_i := by simp [steps_empty] at at_i
  start_le_iff found := by simp [levelStarts_empty] at found
  start found := by simp [levelStarts_empty] at found
  decision at_i := by simp [steps_empty] at at_i

end ClauseLearning.Trail
