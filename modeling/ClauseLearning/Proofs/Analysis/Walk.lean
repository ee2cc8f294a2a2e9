import ClauseLearning.Analysis
import ClauseLearning.Proofs.Coherence

/-!
# The walk back over the trail

The working clause of an analysis is not stored as such: it has the false literals of the marked
variables. Absorbing the literals of a clause adds those that are not fixed at level 0, and
releasing a literal of the trail takes its complement out, so that a step of the walk is a
resolution.

Main statement: from a refuted clause above level 0 the walk ends, without any breach, at a literal
of the current level. Its complement and the collected literals of lower levels form a clause that
every model of the formula satisfies.

The walk cannot run off the trail or miss the last literal of the current level, because the open
variables, those marked at the current level, all lie before the position that the walk has reached,
and `openCount` is their number.
-/

namespace ClauseLearning

namespace Trail

theorem Located.eq_of_refuted {t : Trail} {n : Nat} {q r : Literal} (located : t.Located n)
    (first : t.Holds (-q)) (second : t.Holds (-r)) (same : q.var = r.var) : q = r := by
  obtain ⟨i, s, at_i, s_eq⟩ := first
  obtain ⟨j, u, at_j, u_eq⟩ := second
  have equal := located.step_unique at_i at_j (by rw [s_eq, u_eq, Literal.neg_var, Literal.neg_var,
    same])
  rw [← Literal.neg_neg q, ← s_eq, equal, u_eq, Literal.neg_neg]

end Trail

namespace Analyser

/-- The working clause has a literal. -/
def Has (a : Analyser) (t : Trail) (q : Literal) : Prop :=
  a.marks[q.var]? = some true ∧ t.Holds (-q)

/-- The variables of the working clause that were assigned at the current level. -/
def openVars (a : Analyser) (t : Trail) : Finset Variable :=
  (Finset.range a.marks.size).filter fun v =>
    a.marks[v]? = some true ∧ t.levelOf[v]? = some t.level

theorem mem_openVars {a : Analyser} {t : Trail} {v : Variable} :
    v ∈ a.openVars t ↔ a.marks[v]? = some true ∧ t.levelOf[v]? = some t.level := by
  unfold openVars
  rw [Finset.mem_filter, Finset.mem_range]
  constructor
  · exact And.right
  · intro both
    exact ⟨(Array.getElem?_eq_some_iff.1 both.1).1, both⟩

/-- Only variables assigned above level 0 are marked, and they have been noted. -/
structure Traced (a : Analyser) (t : Trail) (n : Nat) : Prop where
  size_eq : a.marks.size = n + 1
  assigned : ∀ {v : Variable}, a.marks[v]? = some true →
    ∃ (i : Nat) (s : Step), t.steps[i]? = some s ∧ s.literal.var = v ∧ 0 < s.level
  involved : ∀ {v : Variable}, a.marks[v]? = some true → v ∈ a.involved
  involved_assigned : ∀ v ∈ a.involved,
    ∃ (i : Nat) (s : Step), t.steps[i]? = some s ∧ s.literal.var = v

/-- The analyser with one more variable marked. -/
def marking (a : Analyser) (marks : Array Bool) (v : Variable) : Analyser :=
  { a with marks := marks, involved := a.involved.push v }

section

variable {a : Analyser} {t : Trail} {n i : Nat} {s : Step} {q : Literal} {marks : Array Bool}

theorem Traced.mark (traced : a.Traced t n) (at_i : t.steps[i]? = some s)
    (refuted : s.literal = -q) (above : 0 < s.level)
    (stored : store a.marks q.var true = .ok marks) : (a.marking marks q.var).Traced t n := by
  -- One more variable is marked, and it is the variable of a step above level 0.
  have marked_cases : ∀ {v : Variable}, marks[v]? = some true →
      v = q.var ∨ a.marks[v]? = some true := by
    intro v marked
    rw [getElem?_of_store stored] at marked
    split at marked
    next same => exact .inl same.symm
    next => exact .inr marked
  refine ⟨(size_of_store stored).trans traced.size_eq, ?_, ?_, ?_⟩
  · intro v marked
    rcases marked_cases marked with rfl | old
    · exact ⟨i, s, at_i, by rw [refuted, Literal.neg_var], above⟩
    · exact traced.assigned old
  · intro v marked
    rcases marked_cases marked with rfl | old
    · exact Array.mem_push_self
    · exact Array.mem_push_of_mem _ (traced.involved old)
  · intro v member
    rcases Array.mem_push.1 member with old | rfl
    · exact traced.involved_assigned v old
    · exact ⟨i, s, at_i, by rw [refuted, Literal.neg_var]⟩

theorem has_marking (charted : t.Charted n) (stored : store a.marks q.var true = .ok marks)
    (refuted : t.Holds (-q)) (r : Literal) :
    (a.marking marks q.var).Has t r ↔ a.Has t r ∨ r = q := by
  unfold Has marking
  rw [getElem?_of_store stored]
  by_cases same : q.var = r.var
  · rw [if_pos same]
    constructor
    · rintro ⟨_, holds⟩
      exact .inr (charted.eq_of_refuted refuted holds same).symm
    · rintro (⟨_, holds⟩ | rfl)
      · exact ⟨rfl, holds⟩
      · exact ⟨rfl, refuted⟩
  · rw [if_neg same]
    constructor
    · exact .inl
    · rintro (has | rfl)
      · exact has
      · exact absurd rfl same

theorem mem_openVars_marking (stored : store a.marks q.var true = .ok marks) {v : Variable} :
    v ∈ (a.marking marks q.var).openVars t ↔
      v ∈ a.openVars t ∨ v = q.var ∧ t.levelOf[q.var]? = some t.level := by
  rw [mem_openVars, mem_openVars]
  unfold marking
  rw [getElem?_of_store stored]
  by_cases same : q.var = v
  · subst same
    simp
  · simp [same, Ne.symm same]

end

end Analyser

namespace Walk

/-- The collected literals are those of lower levels in the working clause, and the counter is the
number of the others. -/
structure Tidy (w : Walk) (t : Trail) (n : Nat) : Prop where
  traced : w.analyser.Traced t n
  lower_iff : ∀ {q : Literal}, q ∈ w.lower ↔ w.analyser.Has t q ∧ ¬t.FalseNow q
  lower_nodup : w.lower.Nodup
  count_eq : w.openCount = (w.analyser.openVars t).card

theorem Tidy.exists_open {w : Walk} {t : Trail} {n : Nat} (tidy : w.Tidy t n)
    (charted : t.Charted n) (counted : w.openCount ≠ 0) :
    ∃ q, w.analyser.Has t q ∧ t.FalseNow q := by
  have nonempty : (w.analyser.openVars t).Nonempty := by
    rw [← Finset.card_pos, ← tidy.count_eq]
    exact Nat.pos_of_ne_zero counted
  obtain ⟨v, member⟩ := nonempty
  obtain ⟨marked, level⟩ := Analyser.mem_openVars.1 member
  obtain ⟨i, s, at_i, rfl, _⟩ := tidy.traced.assigned marked
  have same := charted.levelOf at_i
  rw [level, Option.some.injEq] at same
  have refuted : s.literal = - -s.literal := (Literal.neg_neg _).symm
  exact ⟨-s.literal, ⟨marked, i, s, at_i, refuted⟩, i, s, at_i, refuted, same.symm⟩

/-- When no variable is open, the working clause has been collected. -/
theorem Tidy.mem_lower {w : Walk} {t : Trail} {n : Nat} (tidy : w.Tidy t n) (charted : t.Charted n)
    (none_open : w.openCount = 0) {q : Literal} : q ∈ w.lower ↔ w.analyser.Has t q := by
  rw [tidy.lower_iff]
  constructor
  · exact And.left
  · intro has
    refine ⟨has, fun current => ?_⟩
    have empty : w.analyser.openVars t = ∅ := by
      rw [← Finset.card_eq_zero, ← tidy.count_eq]
      exact none_open
    obtain ⟨i, s, at_i, refuted, level⟩ := current
    have table := charted.levelOf at_i
    rw [refuted, Literal.neg_var, level] at table
    have member := Analyser.mem_openVars.2 ⟨has.1, table⟩
    rw [empty] at member
    simp at member

/-! ### Absorbing literals -/

section

variable {w : Walk} {t : Trail} {n i : Nat} {s : Step} {q : Literal} {marks : Array Bool}

/-- A literal of the current level is counted. -/
theorem Tidy.count (tidy : w.Tidy t n) (charted : t.Charted n) (at_i : t.steps[i]? = some s)
    (refuted : s.literal = -q) (unmarked : w.analyser.marks[q.var]? ≠ some true)
    (above : 0 < s.level) (current : s.level = t.level)
    (stored : store w.analyser.marks q.var true = .ok marks) :
    Tidy ⟨w.analyser.marking marks q.var, w.openCount + 1, w.lower⟩ t n where
  traced := tidy.traced.mark at_i refuted above stored
  lower_iff := by
    intro r
    rw [tidy.lower_iff, Analyser.has_marking charted stored ⟨i, s, at_i, refuted⟩]
    constructor
    · exact fun ⟨has, low⟩ => ⟨.inl has, low⟩
    · rintro ⟨has | rfl, low⟩
      · exact ⟨has, low⟩
      · exact absurd ⟨i, s, at_i, refuted, current⟩ low
  lower_nodup := tidy.lower_nodup
  count_eq := by
    have table := charted.levelOf at_i
    rw [refuted, Literal.neg_var, current] at table
    -- The variable was not marked, so it is one more that is open.
    have fresh : q.var ∉ w.analyser.openVars t :=
      fun member => unmarked (Analyser.mem_openVars.1 member).1
    have insert_eq : (w.analyser.marking marks q.var).openVars t =
        insert q.var (w.analyser.openVars t) := by
      ext v
      rw [Analyser.mem_openVars_marking stored, Finset.mem_insert]
      simp [table, or_comm]
    rw [insert_eq, Finset.card_insert_of_notMem fresh, tidy.count_eq]

/-- A literal of a lower level is collected. -/
theorem Tidy.collect (tidy : w.Tidy t n) (charted : t.Charted n) (at_i : t.steps[i]? = some s)
    (refuted : s.literal = -q) (unmarked : w.analyser.marks[q.var]? ≠ some true)
    (above : 0 < s.level) (low : s.level < t.level)
    (stored : store w.analyser.marks q.var true = .ok marks) :
    Tidy ⟨w.analyser.marking marks q.var, w.openCount, q :: w.lower⟩ t n where
  traced := tidy.traced.mark at_i refuted above stored
  lower_iff := by
    intro r
    rw [List.mem_cons, tidy.lower_iff, Analyser.has_marking charted stored ⟨i, s, at_i, refuted⟩]
    constructor
    · rintro (rfl | ⟨has, lower⟩)
      · refine ⟨.inr rfl, fun current => ?_⟩
        have level := current.level_eq charted.toLocated at_i refuted
        omega
      · exact ⟨.inl has, lower⟩
    · rintro ⟨has | rfl, lower⟩
      · exact .inr ⟨has, lower⟩
      · exact .inl rfl
  lower_nodup := by
    refine List.nodup_cons.2 ⟨fun member => ?_, tidy.lower_nodup⟩
    exact unmarked (tidy.lower_iff.1 member).1.1
  count_eq := by
    have table := charted.levelOf at_i
    rw [refuted, Literal.neg_var] at table
    -- A variable of a lower level is not open, whether it is marked or not.
    have same : (w.analyser.marking marks q.var).openVars t = w.analyser.openVars t := by
      ext v
      rw [Analyser.mem_openVars_marking stored, table]
      simp [Nat.ne_of_lt low]
    rw [same, tidy.count_eq]

/-- What absorbing literals does, apart from which of them come into the working clause. -/
structure Absorbs (t : Trail) (n : Nat) (w next : Walk) : Prop where
  tidy : next.Tidy t n
  resolved_eq : next.analyser.resolved = w.analyser.resolved
  count_le : w.openCount ≤ next.openCount

theorem absorb_ok {pivot : Option Variable} (tidy : w.Tidy t n) (charted : t.Charted n)
    (refuted : pivot ≠ some q.var → t.Holds (-q)) :
    ∃ next, w.absorb t pivot q = .ok next ∧ Absorbs t n w next ∧
      ∀ r, next.analyser.Has t r ↔
        w.analyser.Has t r ∨ r = q ∧ pivot ≠ some q.var ∧ ¬t.HoldsBy 0 (-q) := by
  unfold absorb
  by_cases own : pivot = some q.var
  · rw [if_pos own]
    refine ⟨w, rfl, ⟨tidy, rfl, Nat.le_refl _⟩, fun r => ?_⟩
    simp [own]
  rw [if_neg own]
  -- Every other literal is refuted, so its level and its mark can be looked up.
  obtain ⟨i, s, at_i, s_eq⟩ := refuted own
  have holds : t.Holds (-q) := ⟨i, s, at_i, s_eq⟩
  have table : t.varLevel q.var = .ok s.level := by
    have known := charted.levelOf at_i
    rw [s_eq, Literal.neg_var] at known
    exact lookup_eq_ok_iff.2 known
  have inside : q.var < w.analyser.marks.size := by
    have declared := charted.declared at_i
    rw [s_eq, Literal.neg_var] at declared
    rw [tidy.traced.size_eq]
    exact Nat.lt_succ_of_le declared
  have root_iff : t.HoldsBy 0 (-q) ↔ s.level = 0 := by
    rw [← s_eq, charted.holdsBy_iff at_i, Nat.le_zero]
  rw [lookup_eq_ok inside, ok_bind, table, ok_bind]
  by_cases skipped : (w.analyser.marks[q.var] || s.level == 0) = true
  · -- Nothing changes: the literal is there already, or it is fixed at level 0.
    rw [if_pos skipped]
    refine ⟨w, rfl, ⟨tidy, rfl, Nat.le_refl _⟩, fun r => ⟨.inl, ?_⟩⟩
    rintro (has | ⟨rfl, _, above⟩)
    · exact has
    · rcases Bool.or_eq_true_iff.1 skipped with marked | root
      · exact ⟨by rw [Array.getElem?_eq_getElem inside, marked], holds⟩
      · exact absurd (root_iff.2 (beq_iff_eq.1 root)) above
  · rw [if_neg skipped]
    simp only [Bool.or_eq_true, beq_iff_eq, not_or, Bool.not_eq_true] at skipped
    obtain ⟨fresh, not_root⟩ := skipped
    have unmarked : w.analyser.marks[q.var]? ≠ some true := by
      rw [Array.getElem?_eq_getElem inside, fresh]
      simp
    have above : 0 < s.level := Nat.pos_of_ne_zero not_root
    obtain ⟨marks, stored⟩ : ∃ marks, store w.analyser.marks q.var true = .ok marks :=
      ⟨_, store_eq_ok_iff.2 ⟨inside, rfl⟩⟩
    have has_iff : ∀ r, (w.analyser.marking marks q.var).Has t r ↔
        w.analyser.Has t r ∨ r = q ∧ pivot ≠ some q.var ∧ ¬t.HoldsBy 0 (-q) := by
      intro r
      rw [Analyser.has_marking charted stored holds, root_iff]
      simp [own, not_root]
    rw [stored, ok_bind]
    -- Literals of the current level are counted, the others are collected.
    by_cases current : t.level ≤ s.level
    · have level := Nat.le_antisymm (charted.level_le at_i) current
      rw [if_pos current]
      exact ⟨_, rfl, ⟨tidy.count charted at_i s_eq unmarked above level stored, rfl, Nat.le_succ _⟩,
        has_iff⟩
    · rw [if_neg current]
      exact ⟨_, rfl, ⟨tidy.collect charted at_i s_eq unmarked above (Nat.not_le.1 current) stored,
        rfl, Nat.le_refl _⟩, has_iff⟩

end

theorem absorbAll_ok {t : Trail} {n : Nat} {pivot : Option Variable} (charted : t.Charted n)
    (ls : List Literal) :
    ∀ w : Walk, w.Tidy t n → (∀ q ∈ ls, pivot ≠ some q.var → t.Holds (-q)) →
      ∃ next, absorbAll t pivot ls w = .ok next ∧ Absorbs t n w next ∧
        ∀ r, next.analyser.Has t r ↔
          w.analyser.Has t r ∨ r ∈ ls ∧ pivot ≠ some r.var ∧ ¬t.HoldsBy 0 (-r) := by
  induction ls with
  | nil =>
    intro w tidy _
    refine ⟨w, rfl, ⟨tidy, rfl, Nat.le_refl _⟩, fun r => ?_⟩
    simp
  | cons q rest ih =>
    intro w tidy refuted
    obtain ⟨mid, ran, absorbs, has_mid⟩ :=
      absorb_ok tidy charted (refuted q (List.mem_cons_self ..))
    obtain ⟨next, ran_rest, more, has_next⟩ := ih mid absorbs.tidy
      fun r member => refuted r (List.mem_cons_of_mem _ member)
    refine ⟨next, by simp only [absorbAll, ran, ran_rest],
      ⟨more.tidy, more.resolved_eq.trans absorbs.resolved_eq,
        Nat.le_trans absorbs.count_le more.count_le⟩, fun r => ?_⟩
    -- A literal is in the working clause if it was there before, or came in now or later.
    rw [has_next, has_mid, List.mem_cons]
    constructor
    · rintro ((has | ⟨rfl, new⟩) | ⟨member, new⟩)
      · exact .inl has
      · exact .inr ⟨.inl rfl, new⟩
      · exact .inr ⟨.inr member, new⟩
    · rintro (has | ⟨rfl | member, new⟩)
      · exact .inl (.inl has)
      · exact .inl (.inr ⟨rfl, new⟩)
      · exact .inr ⟨member, new⟩

/-- Which clauses have been resolved matters to none of the other books. -/
theorem Tidy.withResolved {w : Walk} {t : Trail} {n : Nat} (tidy : w.Tidy t n)
    (resolved : Array Nat) :
    Tidy { w with analyser := { w.analyser with resolved := resolved } } t n where
  traced := ⟨tidy.traced.size_eq, tidy.traced.assigned, tidy.traced.involved,
    tidy.traced.involved_assigned⟩
  lower_iff := tidy.lower_iff
  lower_nodup := tidy.lower_nodup
  count_eq := tidy.count_eq

theorem resolveWith_ok {f : Formula} {w : Walk} {t : Trail} {n place : Nat}
    {pivot : Option Variable} {ls : List Literal} (tidy : w.Tidy t n) (charted : t.Charted n)
    (found : f.literalsAt place = some ls)
    (refuted : ∀ q ∈ ls, pivot ≠ some q.var → t.Holds (-q)) :
    ∃ next, w.resolveWith f t place pivot = .ok next ∧ next.Tidy t n ∧
      next.analyser.resolved = w.analyser.resolved.push place ∧ w.openCount ≤ next.openCount ∧
      ∀ r, next.analyser.Has t r ↔
        w.analyser.Has t r ∨ r ∈ ls ∧ pivot ≠ some r.var ∧ ¬t.HoldsBy 0 (-r) := by
  obtain ⟨c, at_place, rfl⟩ := Formula.literalsAt_eq_some.1 found
  have read : f.clause place = .ok c := lookup_eq_ok_iff.2 at_place
  obtain ⟨next, ran, absorbs, has_iff⟩ := absorbAll_ok charted c.literals _
    (tidy.withResolved (w.analyser.resolved.push place)) refuted
  refine ⟨next, ?_, absorbs.tidy, absorbs.resolved_eq, absorbs.count_le, has_iff⟩
  unfold resolveWith
  rw [read, ok_bind]
  exact ran

/-! ### Releasing a literal -/

section

variable {w : Walk} {t : Trail} {n i : Nat} {s : Step}

theorem has_release (tidy : w.Tidy t n) (charted : t.Charted n) (at_i : t.steps[i]? = some s)
    (r : Literal) :
    (w.release s.literal).analyser.Has t r ↔ w.analyser.Has t r ∧ r ≠ -s.literal := by
  have inside : s.literal.var < w.analyser.marks.size := by
    rw [tidy.traced.size_eq]
    exact Nat.lt_succ_of_le (charted.declared at_i)
  have refuted : t.Holds (- -s.literal) := ⟨i, s, at_i, (Literal.neg_neg _).symm⟩
  unfold Analyser.Has release
  rw [Array.getElem?_setIfInBounds]
  by_cases same : s.literal.var = r.var
  · rw [if_pos same, if_pos (same ▸ inside)]
    constructor
    · rintro ⟨impossible, _⟩
      simp at impossible
    · rintro ⟨⟨_, holds⟩, different⟩
      exact absurd (charted.eq_of_refuted refuted holds same).symm different
  · rw [if_neg same]
    constructor
    · rintro ⟨marked, holds⟩
      refine ⟨⟨marked, holds⟩, fun equal => ?_⟩
      rw [equal, Literal.neg_var] at same
      exact same rfl
    · exact And.left

theorem mem_openVars_release (tidy : w.Tidy t n) (charted : t.Charted n)
    (at_i : t.steps[i]? = some s) (v : Variable) :
    v ∈ (w.release s.literal).analyser.openVars t ↔
      v ≠ s.literal.var ∧ v ∈ w.analyser.openVars t := by
  have inside : s.literal.var < w.analyser.marks.size := by
    rw [tidy.traced.size_eq]
    exact Nat.lt_succ_of_le (charted.declared at_i)
  rw [Analyser.mem_openVars, Analyser.mem_openVars]
  unfold release
  rw [Array.getElem?_setIfInBounds]
  by_cases same : s.literal.var = v
  · rw [if_pos same, if_pos (same ▸ inside)]
    simp [same]
  · rw [if_neg same]
    simp [Ne.symm same]

/-- A literal of the current level leaves the working clause. -/
theorem Tidy.release (tidy : w.Tidy t n) (charted : t.Charted n) (at_i : t.steps[i]? = some s)
    (current : s.level = t.level) (marked : w.analyser.marks[s.literal.var]? = some true) :
    (w.release s.literal).Tidy t n where
  traced := by
    have old : ∀ {v : Variable}, (w.release s.literal).analyser.marks[v]? = some true →
        w.analyser.marks[v]? = some true := by
      intro v still
      simp only [Walk.release, Array.getElem?_setIfInBounds] at still
      split at still
      next => split at still <;> simp at still
      next => exact still
    refine ⟨by simpa [Walk.release] using tidy.traced.size_eq, ?_, ?_,
      tidy.traced.involved_assigned⟩
    · exact fun still => tidy.traced.assigned (old still)
    · exact fun still => tidy.traced.involved (old still)
  lower_iff := by
    intro q
    rw [has_release tidy charted at_i]
    change q ∈ w.lower ↔ _
    rw [tidy.lower_iff]
    constructor
    · rintro ⟨has, low⟩
      refine ⟨⟨has, fun equal => low ?_⟩, low⟩
      exact ⟨i, s, at_i, by rw [equal, Literal.neg_neg], current⟩
    · exact fun ⟨⟨has, _⟩, low⟩ => ⟨has, low⟩
  lower_nodup := tidy.lower_nodup
  count_eq := by
    have table := charted.levelOf at_i
    rw [current] at table
    have member : s.literal.var ∈ w.analyser.openVars t :=
      Analyser.mem_openVars.2 ⟨marked, table⟩
    -- The released variable was open, so there is one less.
    have erased : (w.release s.literal).analyser.openVars t =
        (w.analyser.openVars t).erase s.literal.var := by
      ext v
      rw [mem_openVars_release tidy charted at_i, Finset.mem_erase]
    rw [erased, Finset.card_erase_of_mem member, ← tidy.count_eq]
    rfl

end

/-! ### The walk -/

/-- Every model of the formula makes the working clause true. -/
def Follows (w : Walk) (f : Formula) (t : Trail) : Prop :=
  ∀ σ, f.Models σ → ∃ q, w.analyser.Has t q ∧ q.IsTrue σ

/-- A walk that has passed all positions from `m` on. Some variable is open, and the open ones lie
before `m`. -/
structure Underway (f : Formula) (t : Trail) (n m : Nat) (w : Walk) : Prop where
  tidy : w.Tidy t n
  follows : w.Follows f t
  before : ∀ {q : Literal} {i : Nat} {s : Step}, w.analyser.Has t q → t.steps[i]? = some s →
    s.literal = -q → s.level = t.level → i < m
  counted : w.openCount ≠ 0
  resolved : ∀ place ∈ w.analyser.resolved, place < f.size

/-- Where a walk ends: the complement of `l` and the collected literals are the clause to learn. -/
structure Ended (f : Formula) (t : Trail) (n : Nat) (w : Walk) (l : Literal) : Prop where
  tidy : w.Tidy t n
  none_open : w.openCount = 0
  current : t.FalseNow (-l)
  follows : ∀ σ, f.Models σ → SomeTrue σ (-l :: w.lower)
  resolved : ∀ place ∈ w.analyser.resolved, place < f.size

section

variable {f : Formula} {t : Trail} {n : Nat} {w : Walk}

/-- A literal that is true in a model has not been refuted at level 0. -/
theorem not_refuted_of_isTrue (explained : t.Explained f n) {σ : Valuation} (models : f.Models σ)
    {q : Literal} (true_q : q.IsTrue σ) : ¬t.HoldsBy 0 (-q) := by
  rintro ⟨i, s, at_i, refuted, root⟩
  have true_neg := explained.isTrue_of_root models i s at_i (Nat.le_zero.1 root)
  rw [refuted, Literal.isTrue_neg] at true_neg
  exact true_neg true_q

/-- The resolvent with the clause that forced a step follows. -/
theorem Follows.resolve {place : Nat} {s : Step} {ls : List Literal} {next : Walk}
    (follows : w.Follows f t) (explained : t.Explained f n)
    (found : f.literalsAt place = some ls)
    (has_next : ∀ r, next.analyser.Has t r ↔ w.analyser.Has t r ∧ r ≠ -s.literal ∨
      r ∈ ls ∧ r ≠ s.literal ∧ ¬t.HoldsBy 0 (-r)) : next.Follows f t := by
  intro σ models
  obtain ⟨q, has, true_q⟩ := follows σ models
  by_cases upon : q = -s.literal
  · -- The literal resolved upon is false, so the clause that forced it has another true literal.
    obtain ⟨r, r_mem, true_r⟩ := models place ls found
    have different : r ≠ s.literal := by
      intro equal
      rw [upon, Literal.isTrue_neg] at true_q
      exact true_q (equal ▸ true_r)
    have not_root := not_refuted_of_isTrue explained models true_r
    exact ⟨r, (has_next r).2 (.inr ⟨r_mem, different, not_root⟩), true_r⟩
  -- Any other literal is still in the resolvent.
  · exact ⟨q, (has_next q).2 (.inl ⟨has, upon⟩), true_q⟩

/-- The step that the walk meets is of the current level as long as a variable is open. -/
theorem Underway.level_eq {m : Nat} {s : Step} (walk : Underway f t n (m + 1) w)
    (explained : t.Explained f n) (at_m : t.steps[m]? = some s) : s.level = t.level := by
  obtain ⟨q, has, i, r, at_i, refuted, current⟩ :=
    walk.tidy.exists_open explained.toCharted walk.counted
  have before := walk.before has at_i refuted current
  have level := explained.level_mono at_i at_m (Nat.lt_succ_iff.1 before)
  exact Nat.le_antisymm (explained.level_le at_m) (current ▸ level)

/-- An unmarked step is passed. -/
theorem Underway.pass {m : Nat} {s : Step} (walk : Underway f t n (m + 1) w)
    (at_m : t.steps[m]? = some s) (unmarked : w.analyser.marks[s.literal.var]? ≠ some true) :
    Underway f t n m w where
  tidy := walk.tidy
  follows := walk.follows
  before := by
    intro q i r has at_i refuted current
    have le := walk.before has at_i refuted current
    refine Nat.lt_of_le_of_ne (Nat.lt_succ_iff.1 le) fun here => ?_
    subst here
    cases at_m.symm.trans at_i
    have marked := has.1
    rw [← Literal.neg_var, ← refuted] at marked
    exact unmarked marked
  counted := walk.counted
  resolved := walk.resolved

/-- The last open variable is the one released: the walk ends. -/
theorem Underway.ended {m : Nat} {s : Step} (walk : Underway f t n (m + 1) w)
    (explained : t.Explained f n) (at_m : t.steps[m]? = some s)
    (marked : w.analyser.marks[s.literal.var]? = some true)
    (last : (w.release s.literal).openCount = 0) : Ended f t n (w.release s.literal) s.literal where
  tidy := walk.tidy.release explained.toCharted at_m (walk.level_eq explained at_m) marked
  none_open := last
  current := ⟨m, s, at_m, (Literal.neg_neg _).symm, walk.level_eq explained at_m⟩
  follows := by
    intro σ models
    have tidy := walk.tidy.release explained.toCharted at_m (walk.level_eq explained at_m) marked
    obtain ⟨q, has, true_q⟩ := walk.follows σ models
    by_cases upon : q = -s.literal
    · exact ⟨q, upon ▸ List.mem_cons_self .., true_q⟩
    · have has_after := (has_release walk.tidy explained.toCharted at_m q).2 ⟨has, upon⟩
      have member := (tidy.mem_lower explained.toCharted last).2 has_after
      exact ⟨q, List.mem_cons_of_mem _ member, true_q⟩
  resolved := walk.resolved

/-- A decision opens its level, so it is only met as the last open variable. -/
theorem Underway.not_decision {m : Nat} {s : Step} (walk : Underway f t n (m + 1) w)
    (explained : t.Explained f n) (at_m : t.steps[m]? = some s)
    (marked : w.analyser.marks[s.literal.var]? = some true)
    (more : (w.release s.literal).openCount ≠ 0) : s.reason ≠ .decision := by
  intro decided
  have level := walk.level_eq explained at_m
  have tidy := walk.tidy.release explained.toCharted at_m level marked
  obtain ⟨q, has, i, r, at_i, refuted, current⟩ := tidy.exists_open explained.toCharted more
  obtain ⟨has_before, different⟩ := (has_release walk.tidy explained.toCharted at_m q).1 has
  have before := walk.before has_before at_i refuted current
  have first := explained.decision_first at_m decided at_i (current.trans level.symm)
  have here : i = m := by omega
  subst here
  cases at_m.symm.trans at_i
  exact different (by rw [refuted, Literal.neg_neg])

/-- A step of the walk is a resolution with the clause that forced the step. -/
theorem Underway.resolveWith {m place : Nat} {s : Step} (walk : Underway f t n (m + 1) w)
    (explained : t.Explained f n) (at_m : t.steps[m]? = some s)
    (marked : w.analyser.marks[s.literal.var]? = some true) (forced : s.reason = .clause place) :
    ∃ ls next, f.literalsAt place = some ls ∧ s.literal ∈ ls ∧
      (∀ q ∈ ls, q ≠ s.literal → t.HoldsBefore m (-q)) ∧
      (w.release s.literal).resolveWith f t place (some s.literal.var) = .ok next ∧
      next.Tidy t n ∧ next.analyser.resolved = w.analyser.resolved.push place ∧
      (w.release s.literal).openCount ≤ next.openCount ∧
      ∀ r, next.analyser.Has t r ↔ w.analyser.Has t r ∧ r ≠ -s.literal ∨
        r ∈ ls ∧ r ≠ s.literal ∧ ¬t.HoldsBy 0 (-r) := by
  have charted := explained.toCharted
  have tidy := walk.tidy.release charted at_m (walk.level_eq explained at_m) marked
  obtain ⟨ls, found, member, others⟩ := explained.justified at_m forced
  -- Literals are told apart by their variables: the others are of earlier steps.
  have var_iff : ∀ q ∈ ls, some s.literal.var ≠ some q.var ↔ q ≠ s.literal := by
    intro q q_mem
    constructor
    · rintro other_var rfl
      exact other_var rfl
    · intro different same
      exact explained.var_ne at_m (others q q_mem different) (Option.some.inj same).symm
  obtain ⟨next, ran, tidy_next, resolved_eq, count_le, has_next⟩ :=
    resolveWith_ok tidy charted found fun q q_mem other_var =>
      (others q q_mem ((var_iff q q_mem).1 other_var)).holds
  refine ⟨ls, next, found, member, others, ran, tidy_next, resolved_eq, count_le, fun r => ?_⟩
  rw [has_next, has_release walk.tidy charted at_m]
  refine or_congr_right (and_congr_right fun r_mem => ?_)
  rw [var_iff r r_mem]

/-- After a resolution, the walk goes on before the step. -/
theorem Underway.resolve {m place : Nat} {s : Step} (walk : Underway f t n (m + 1) w)
    (explained : t.Explained f n) (at_m : t.steps[m]? = some s)
    (marked : w.analyser.marks[s.literal.var]? = some true)
    (more : (w.release s.literal).openCount ≠ 0) (forced : s.reason = .clause place) :
    ∃ next, (w.release s.literal).resolveWith f t place (some s.literal.var) = .ok next ∧
      Underway f t n m next := by
  obtain ⟨ls, next, found, _, others, ran, tidy_next, resolved_eq, count_le, has_next⟩ :=
    walk.resolveWith explained at_m marked forced
  refine ⟨next, ran, tidy_next, walk.follows.resolve explained found has_next, ?_, by omega, ?_⟩
  · intro q i r has at_i refuted current
    rcases (has_next q).1 has with ⟨has_old, different⟩ | ⟨q_mem, different, _⟩
    · have le := walk.before has_old at_i refuted current
      refine Nat.lt_of_le_of_ne (Nat.lt_succ_iff.1 le) fun here => different ?_
      subst here
      cases at_m.symm.trans at_i
      rw [refuted, Literal.neg_neg]
    -- What the clause brings in was refuted before the step that it forced.
    · obtain ⟨j, u, before, at_j, same⟩ := others q q_mem different
      have position := explained.position_unique at_i at_j (by rw [refuted, same])
      omega
  · intro p p_mem
    rw [resolved_eq, Array.mem_push] at p_mem
    rcases p_mem with old | rfl
    · exact walk.resolved p old
    · exact Formula.lt_size_of_literalsAt found

/-- The states of a walk that starts from `first` behind the last step, each with the position that
it has come back to. A step whose variable is not marked is passed. A marked one is resolved upon,
as long as another variable is open. -/
inductive Reaches (f : Formula) (t : Trail) (first : Walk) : Nat → Walk → Prop
  | start : Reaches f t first t.size first
  | pass {m : Nat} {w : Walk} {s : Step} (reaches : Reaches f t first (m + 1) w)
      (at_m : t.steps[m]? = some s) (unmarked : w.analyser.marks[s.literal.var]? ≠ some true) :
      Reaches f t first m w
  | resolve {m place : Nat} {w next : Walk} {s : Step} (reaches : Reaches f t first (m + 1) w)
      (at_m : t.steps[m]? = some s) (marked : w.analyser.marks[s.literal.var]? = some true)
      (more : (w.release s.literal).openCount ≠ 0) (forced : s.reason = .clause place)
      (ran : (w.release s.literal).resolveWith f t place (some s.literal.var) = .ok next) :
      Reaches f t first m next

/-- The walk stops at step `s`, whose variable is the only open one of `w`. -/
structure Halts (f : Formula) (t : Trail) (first : Walk) (m : Nat) (s : Step) (w : Walk) :
    Prop where
  reaches : Reaches f t first (m + 1) w
  at_m : t.steps[m]? = some s
  marked : w.analyser.marks[s.literal.var]? = some true
  last : (w.release s.literal).openCount = 0

theorem Reaches.underway {first : Walk} {m : Nat} (reaches : Reaches f t first m w)
    (explained : t.Explained f n) (begins : Underway f t n t.size first) :
    Underway f t n m w := by
  induction reaches with
  | start => exact begins
  | pass _ at_m unmarked ih => exact ih.pass at_m unmarked
  | resolve _ at_m marked more forced ran ih =>
    obtain ⟨next, ran_next, walk⟩ := ih.resolve explained at_m marked more forced
    cases ran.symm.trans ran_next
    exact walk

theorem Halts.ended {first : Walk} {m : Nat} {s : Step} (halts : Halts f t first m s w)
    (explained : t.Explained f n) (begins : Underway f t n t.size first) :
    Ended f t n (w.release s.literal) s.literal :=
  (halts.reaches.underway explained begins).ended explained halts.at_m halts.marked halts.last

/-- The walk back stops at a step of the current level, by induction along the trail. -/
theorem back_halts {first : Walk} (explained : t.Explained f n)
    (begins : Underway f t n t.size first) (m : Nat) :
    ∀ w : Walk, Reaches f t first m w → m ≤ t.size →
      ∃ k s last, back f t m w = .ok (last.release s.literal, .ok s.literal) ∧
        Halts f t first k s last := by
  induction m with
  | zero =>
    intro w reaches _
    -- Some variable is open and would have to lie before position 0.
    have walk := reaches.underway explained begins
    obtain ⟨q, has, i, s, at_i, refuted, current⟩ :=
      walk.tidy.exists_open explained.toCharted walk.counted
    have before := walk.before has at_i refuted current
    omega
  | succ m ih =>
    intro w reaches inside
    have walk := reaches.underway explained begins
    obtain ⟨s, at_m⟩ : ∃ s, t.steps[m]? = some s :=
      ⟨_, Array.getElem?_eq_getElem (Nat.lt_of_succ_le inside)⟩
    have within : s.literal.var < w.analyser.marks.size := by
      rw [walk.tidy.traced.size_eq]
      exact Nat.lt_succ_of_le (explained.declared at_m)
    have reason : t.varReason s.literal.var = .ok s.reason := by
      unfold Trail.varReason Trail.varPosition
      rw [lookup_eq_ok_iff.2 (explained.positionOf at_m), ok_bind, lookup_eq_ok_iff.2 at_m,
        ok_bind, pure_eq_ok]
    unfold back
    simp only [lookup_eq_ok_iff.2 at_m, ok_bind, lookup_eq_ok within]
    cases mark : w.analyser.marks[s.literal.var] with
    | false =>
      have unmarked : w.analyser.marks[s.literal.var]? ≠ some true := by
        rw [Array.getElem?_eq_getElem within, mark]
        simp
      exact ih w (reaches.pass at_m unmarked) (Nat.le_of_succ_le inside)
    | true =>
      have marked : w.analyser.marks[s.literal.var]? = some true := by
        rw [Array.getElem?_eq_getElem within, mark]
      by_cases last : (w.release s.literal).openCount = 0
      · refine ⟨m, s, w, ?_, reaches, at_m, marked, last⟩
        simp only [Bool.not_true, Bool.false_eq_true, if_false, last, if_true, pure_eq_ok]
      · simp only [Bool.not_true, Bool.false_eq_true, if_false, last, reason, ok_bind]
        cases forced : s.reason with
        -- Only the last open variable can be the decision, and more are open.
        | decision => exact absurd forced (walk.not_decision explained at_m marked last)
        | clause place =>
          obtain ⟨next, ran, walk_next⟩ := walk.resolve explained at_m marked last forced
          obtain ⟨k, r, final, ran_rest, halts⟩ :=
            ih next (reaches.resolve at_m marked last forced ran) (Nat.le_of_succ_le inside)
          refine ⟨k, r, final, ?_, halts⟩
          simp only [ran, ok_bind, if_neg walk_next.counted, ran_rest]

end

/-- An analysis starts with all marks clear and nothing noted. -/
theorem tidy_start {t : Trail} {n : Nat} {marks : Array Bool} (size_eq : marks.size = n + 1)
    (clear : ∀ v : Variable, marks[v]? ≠ some true) : Tidy ⟨⟨marks, #[], #[]⟩, 0, []⟩ t n where
  traced := ⟨size_eq, fun marked => absurd marked (clear _), fun marked => absurd marked (clear _),
    by simp⟩
  lower_iff := by
    intro q
    simp [Analyser.Has, clear]
  lower_nodup := List.nodup_nil
  count_eq := by
    have empty : Analyser.openVars ⟨marks, #[], #[]⟩ t = ∅ := by
      ext v
      rw [Analyser.mem_openVars]
      simp [clear]
    rw [empty]
    rfl

section

variable {f : Formula} {t : Trail} {n place : Nat} {ls : List Literal} {marks : Array Bool}

/-- The working clause starts as the conflict without the literals fixed at level 0. Some variable
is open if and only if the conflict has a literal of the current level. -/
theorem resolveWith_start (charted : t.Charted n) (found : f.literalsAt place = some ls)
    (refuted : t.Refutes ls) (above : 0 < t.level) (size_eq : marks.size = n + 1)
    (clear : ∀ v : Variable, marks[v]? ≠ some true) :
    ∃ w, resolveWith f t place none ⟨⟨marks, #[], #[]⟩, 0, []⟩ = .ok w ∧ w.Tidy t n ∧
      w.analyser.resolved = #[place] ∧ (w.openCount ≠ 0 ↔ ∃ q ∈ ls, t.FalseNow q) ∧
      ∀ r, w.analyser.Has t r ↔ r ∈ ls ∧ ¬t.HoldsBy 0 (-r) := by
  obtain ⟨w, ran, tidy, resolved_eq, _, has_iff⟩ :=
    @resolveWith_ok f _ t _ place none ls (tidy_start size_eq clear) charted found
      fun q member _ => refuted q member
  have has_w : ∀ r, w.analyser.Has t r ↔ r ∈ ls ∧ ¬t.HoldsBy 0 (-r) := by
    intro r
    rw [has_iff]
    simp [Analyser.Has, clear]
  refine ⟨w, ran, tidy, resolved_eq, ?_, has_w⟩
  constructor
  · intro counted
    obtain ⟨q, has, current⟩ := tidy.exists_open charted counted
    exact ⟨q, ((has_w q).1 has).1, current⟩
  · rintro ⟨q, member, current⟩ none_open
    have not_root : ¬t.HoldsBy 0 (-q) := by
      obtain ⟨i, s, at_i, refuted_q, level⟩ := current
      rw [← refuted_q, charted.holdsBy_iff at_i]
      omega
    have collected := (tidy.mem_lower charted none_open).2 ((has_w q).2 ⟨member, not_root⟩)
    exact (tidy.lower_iff.1 collected).2 current

/-- From a conflict with a literal of the current level the walk stops without a breach. -/
theorem run_halts (explained : t.Explained f n) (found : f.literalsAt place = some ls)
    (refuted : t.Refutes ls) (above : 0 < t.level) (current : ∃ q ∈ ls, t.FalseNow q)
    (size_eq : marks.size = n + 1) (clear : ∀ v : Variable, marks[v]? ≠ some true) :
    ∃ first m s w, resolveWith f t place none ⟨⟨marks, #[], #[]⟩, 0, []⟩ = .ok first ∧
      Underway f t n t.size first ∧ Halts f t first m s w ∧
      run f t place ⟨⟨marks, #[], #[]⟩, 0, []⟩ = .ok (w.release s.literal, .ok s.literal) := by
  obtain ⟨first, ran, tidy, resolved_eq, counted_iff, has_first⟩ :=
    resolveWith_start explained.toCharted found refuted above size_eq clear
  have counted : first.openCount ≠ 0 := counted_iff.2 current
  have begins : Underway f t n t.size first := by
    refine ⟨tidy, ?_, ?_, counted, ?_⟩
    · intro σ models
      obtain ⟨q, member, true_q⟩ := models place ls found
      exact ⟨q, (has_first q).2 ⟨member, not_refuted_of_isTrue explained models true_q⟩, true_q⟩
    · intro q i s _ at_i _ _
      exact Trail.lt_size at_i
    · intro p p_mem
      rw [resolved_eq] at p_mem
      obtain rfl : p = place := by simpa using p_mem
      exact Formula.lt_size_of_literalsAt found
  obtain ⟨m, s, w, ran_back, halts⟩ :=
    back_halts explained begins t.size first .start (Nat.le_refl _)
  refine ⟨first, m, s, w, ran, begins, halts, ?_⟩
  unfold run
  rw [ran, ok_bind, if_neg counted]
  exact ran_back

/-- A conflict without a literal of the current level is refused. -/
theorem run_refused (charted : t.Charted n) (found : f.literalsAt place = some ls)
    (refuted : t.Refutes ls) (above : 0 < t.level) (older : ¬∃ q ∈ ls, t.FalseNow q)
    (size_eq : marks.size = n + 1) (clear : ∀ v : Variable, marks[v]? ≠ some true) :
    ∃ next, run f t place ⟨⟨marks, #[], #[]⟩, 0, []⟩ =
      .ok (next, .error (.noLiteralAtLevel place t.level)) := by
  obtain ⟨w, ran, _, _, counted_iff, _⟩ :=
    resolveWith_start charted found refuted above size_eq clear
  have none_open : w.openCount = 0 := by
    by_contra counted
    exact older (counted_iff.1 counted)
  refine ⟨w, ?_⟩
  unfold run
  rw [ran, ok_bind, if_pos none_open]
  rfl

end

end Walk

end ClauseLearning
