import ClauseLearning.Proofs.Analysis.Entailment

/-!
# Learnt clauses are asserting

Main statement: for every trail that is in order and every clause that it refutes with a literal of
the current level, the analysis returns a clause that asserts its first literal. All its literals
are false above level 0, the first alone because of the current level. A clause of more than one
literal has one of the greatest remaining level in second place; going back to this level takes the
value of the first literal away and leaves the others false.

The number of levels that is stored with the clause is exact: a clause has no more levels than
variables, and variables are few enough for a 32-bit word.
-/

namespace ClauseLearning

namespace Trail

instance (t : Trail) (l : Literal) : Decidable (t.Holds l) :=
  decidable_of_iff (t.HoldsBefore t.size l) ⟨HoldsBefore.holds, holdsBefore_size⟩

instance (t : Trail) (n : Nat) : Decidable (t.Recorded n) :=
  decidable_of_iff (t.Located n ∧ (t.levelOf.size = n + 1 ∧ t.positionOf.size = n + 1 ∧
      t.values.slots.size = n + 1 ∧ t.values.numAssigned = t.size) ∧
      (∀ s ∈ t.steps, 0 < s.literal.var ∧
        t.values.slots[s.literal.var]? = some (some s.literal.polarity)) ∧
      ∀ v : Fin t.values.slots.size, ∀ b ∈ t.values.slots[v], t.Holds ⟨v, b⟩) <| by
    constructor
    · rintro ⟨located, ⟨levels, positions, slots, count⟩, steps, assigned⟩
      exact { located with
        levelOf_size := levels
        positionOf_size := positions
        slots_size := slots
        count_eq := count
        positive := fun at_i => (steps _ (Array.mem_of_getElem? at_i)).1
        slot := fun at_i => (steps _ (Array.mem_of_getElem? at_i)).2
        assigned := fun {v b} slot =>
          have ⟨inside, value⟩ := Array.getElem?_eq_some_iff.1 slot
          assigned ⟨v, inside⟩ b value }
    · intro recorded
      refine ⟨recorded.toLocated, ⟨recorded.levelOf_size, recorded.positionOf_size,
        recorded.slots_size, recorded.count_eq⟩, fun s member => ?_,
        fun v b value => recorded.assigned (Array.getElem?_eq_some_iff.2 ⟨v.isLt, value⟩)⟩
      obtain ⟨i, at_i⟩ := Array.mem_iff_getElem?.1 member
      exact ⟨recorded.positive at_i, recorded.slot at_i⟩

end Trail

namespace Analyser

/-- A clause is refuted above level 0, over different variables, by its first literal alone because
of the current level. -/
structure Asserting (t : Trail) (x : Literal) (others : List Literal) : Prop where
  refuted : t.Refutes (x :: others)
  distinct : ((x :: others).map Literal.var).Nodup
  above : ∀ q ∈ x :: others, 0 < depth t q
  current : depth t x = t.level
  lower : ∀ q ∈ others, depth t q < t.level

section

variable {f : Formula} {t : Trail} {n : Nat}

/-- What is collected was refuted above level 0. -/
theorem depth_pos_of_mem_lower {w : Walk} (tidy : w.Tidy t n) (charted : t.Charted n) {q : Literal}
    (member : q ∈ w.lower) : 0 < depth t q := by
  obtain ⟨marked, i, s, at_i, refuted⟩ := (tidy.lower_iff.1 member).1
  obtain ⟨j, r, at_j, same, above⟩ := tidy.traced.assigned marked
  have equal := charted.step_unique at_i at_j (by rw [refuted, Literal.neg_var, same])
  rw [depth_eq charted at_i refuted, equal]
  exact above

theorem depth_of_falseNow (charted : t.Charted n) {q : Literal} (current : t.FalseNow q) :
    depth t q = t.level := by
  obtain ⟨i, s, at_i, refuted, level⟩ := current
  rw [depth_eq charted at_i refuted, level]

theorem depth_le_of_holdsBy (charted : t.Charted n) {q : Literal} {k : Nat}
    (holds : t.HoldsBy k (-q)) : depth t q ≤ k := by
  obtain ⟨i, s, at_i, refuted, level⟩ := holds
  rwa [depth_eq charted at_i refuted]

theorem asserting_of_lesson {x : Literal} {others : List Literal} {level : Nat}
    (charted : t.Charted n) (lesson : Lesson f t x others level)
    (above : ∀ q ∈ others, 0 < depth t q) : Asserting t x others := by
  have current := depth_of_falseNow charted lesson.current
  refine ⟨lesson.holds_neg, lesson.distinct, ?_, current, ?_⟩
  · intro q member
    rcases List.mem_cons.1 member with rfl | later
    · exact current ▸ Nat.lt_of_le_of_lt (Nat.zero_le _) lesson.lower
    · exact above q later
  · intro q member
    exact Nat.lt_of_le_of_lt (depth_le_of_holdsBy charted (lesson.refuted q member)) lesson.lower

/-- After going back, the first literal has no value and the others are false. -/
theorem backtrackTo_of_lesson {x : Literal} {others : List Literal} {level : Nat}
    (lesson : Lesson f t x others level) (recorded : t.Recorded n) (layered : t.Layered) :
    ∃ u popped, t.backtrackTo level = .ok (u, popped) ∧ u.values.value? x.var = none ∧
      ∀ q ∈ others, u.values.literalValue? q = some false := by
  obtain ⟨start, found⟩ : ∃ start, t.levelStarts[level]? = some start :=
    ⟨_, Array.getElem?_eq_getElem lesson.lower⟩
  have start_le := layered.start_le_size found
  obtain ⟨values, ran, clears⟩ := recorded.backtrackTo_eq found start_le
  have recorded_u := recorded.cut (k := level) start_le clears
  have back : t.Backtracks level (t.cut level start values) := layered.backtracks_cut found
  refine ⟨_, _, ran, lesson.free recorded.toLocated recorded_u back, fun q member => ?_⟩
  exact recorded_u.literalValue?_eq_false.2 (lesson.refutes back q member)

/-! ### Counting levels -/

theorem length_eraseDups_eq_card (levels : List Nat) :
    levels.eraseDups.length = levels.toFinset.card := by
  rw [← List.toFinset_card_of_nodup (nodup_eraseDups levels)]
  congr 1
  ext level
  rw [List.mem_toFinset, List.mem_toFinset, List.mem_eraseDups]

/-- The number of levels does not depend on their order. -/
theorem countLevels_perm {levels more : List Nat} (perm : levels.Perm more) :
    countLevels levels = countLevels more := by
  unfold countLevels
  rw [length_eraseDups_eq_card, length_eraseDups_eq_card, List.toFinset_eq_of_perm _ _ perm]

/-- Refuted literals of different variables are no more than there are literals to be had. -/
theorem length_le_of_refutes {ls : List Literal} (refuted : t.Refutes ls)
    (distinct : (ls.map Literal.var).Nodup)
    (represented : ∀ s ∈ t.steps, s.literal.var < literalBound) : ls.length ≤ literalBound := by
  have inside : ls.map Literal.var ⊆ List.range literalBound := by
    intro v member
    obtain ⟨q, q_mem, rfl⟩ := List.mem_map.1 member
    obtain ⟨i, s, at_i, s_eq⟩ := refuted q q_mem
    have bound := represented s (Array.mem_of_getElem? at_i)
    rw [s_eq, Literal.neg_var] at bound
    exact List.mem_range.2 bound
  have fewer := (distinct.subperm inside).length_le
  rwa [List.length_map, List.length_range] at fewer

/-- The number of levels of a refuted clause fits its word. -/
theorem countLevels_eq_card {ls : List Literal} (refuted : t.Refutes ls)
    (distinct : (ls.map Literal.var).Nodup)
    (represented : ∀ s ∈ t.steps, s.literal.var < literalBound) :
    countLevels (ls.map (depth t)) = (ls.map (depth t)).toFinset.card := by
  have few := length_le_of_refutes refuted distinct represented
  have fewer := List.toFinset_card_le (ls.map (depth t))
  rw [List.length_map] at fewer
  unfold countLevels
  rw [length_eraseDups_eq_card, Nat.min_eq_left]
  unfold literalBound at few
  omega

theorem Asserting.two_le_card {x y : Literal} {rest : List Literal}
    (asserting : Asserting t x (y :: rest)) :
    2 ≤ ((x :: y :: rest).map (depth t)).toFinset.card := by
  refine Finset.one_lt_card.2 ⟨depth t x, by simp, depth t y, by simp, ?_⟩
  have lower := asserting.lower y (List.mem_cons_self ..)
  have current := asserting.current
  omega

end

/-- The analysis of a clause that is refuted with a literal of the current level returns an
asserting clause. -/
theorem analyse_asserting {a : Analyser} {f : Formula} {t : Trail} {n place : Nat}
    {ls : List Literal} (wellFormed : t.WellFormed f n) (clear : a.Clear n)
    (represented : ∀ s ∈ t.steps, s.literal.var < literalBound)
    (found : f.literalsAt place = some ls) (refuted : t.Refutes ls) (above : 0 < t.level)
    (current : ∃ q ∈ ls, t.FalseNow q) :
    ∃ next conflict x others level, a.analyse f t place = .ok (next, .ok conflict) ∧
      Asserting t x others ∧
      (conflict = .unit x ∧ others = [] ∧ level = 0 ∨
        ∃ c y rest, conflict = .learned c level ∧ c.literals = x :: others ∧ others = y :: rest ∧
          depth t y = level ∧ (∀ q ∈ others, depth t q ≤ level) ∧ 1 ≤ level ∧ level < t.level ∧
          c.lbd = (c.literals.map (depth t)).toFinset.card ∧ 2 ≤ c.lbd) ∧
      (t.Recorded n → ∃ u popped, t.backtrackTo level = .ok (u, popped) ∧
        u.values.value? x.var = none ∧ ∀ q ∈ others, u.values.literalValue? q = some false) := by
  have explained := wellFormed.explained
  have charted := explained.toCharted
  obtain ⟨first, m, s, w, _, begins, halts, ran⟩ :=
    Walk.run_halts explained found refuted above current clear.size_eq clear.unmarked
  have ended := halts.ended explained begins
  have analysed := analyse_of_ended explained above ran ended
  have positive : ∀ q ∈ kept f t (w.release s.literal), 0 < depth t q := fun q member =>
    depth_pos_of_mem_lower ended.tidy charted (mem_kept.1 member).1
  rcases conclusion_cases t (-s.literal) (kept f t (w.release s.literal)) with
    ⟨empty, is_unit⟩ | ⟨b, rest, perm, deepest, is_learned⟩
  · have lesson : Lesson f t (-s.literal) [] 0 :=
      lesson_of_ended explained above ended (by rw [empty]) (fun _ => rfl) (by simp) (by simp)
    rw [is_unit] at analysed
    exact ⟨_, _, _, [], 0, analysed, asserting_of_lesson charted lesson (by simp),
      .inl ⟨rfl, rfl, rfl⟩, fun recorded =>
        backtrackTo_of_lesson lesson recorded charted.toLayered⟩
  · have inside : ∀ q ∈ b :: rest, depth t q ≤ depth t b := fun q member =>
      deepest q (perm.mem_iff.1 member)
    have lesson : Lesson f t (-s.literal) (b :: rest) (depth t b) :=
      lesson_of_ended explained above ended perm (by simp) inside (by rintro q ⟨⟩; rfl)
    have asserting := asserting_of_lesson charted lesson fun q member =>
      positive q (perm.mem_iff.1 member)
    have counted : countLevels ((-s.literal :: kept f t (w.release s.literal)).map (depth t)) =
        ((-s.literal :: b :: rest).map (depth t)).toFinset.card := by
      rw [← countLevels_eq_card asserting.refuted asserting.distinct represented]
      exact countLevels_perm ((perm.symm.cons _).map _)
    rw [is_learned] at analysed
    exact ⟨_, _, _, b :: rest, depth t b, analysed, asserting,
      .inr ⟨_, b, rest, rfl, rfl, rfl, rfl, inside, asserting.above b (by simp), lesson.lower,
        counted, counted ▸ asserting.two_le_card⟩,
      fun recorded => backtrackTo_of_lesson lesson recorded charted.toLayered⟩

/-- The literals of levels 1 and 2 are collected in this order and change places. -/
theorem analyse_asserting_swapped :
    ∃ f, Formula.ofClauses [[-3, 4], [-2, -3, 5], [-4, -5, -1]] = .ok f ∧
      ∃ (t : Trail) (next : Analyser) (c : Clause) (x y : Literal) (rest : List Literal),
        t.WellFormed f 5 ∧ t.Recorded 5 ∧
        (empty 5).analyse f t 2 = .ok (next, .ok (.learned c 2)) ∧
        c.literals.map Literal.toInt = [-3, -2, -1] ∧ c.lbd = 3 ∧ c.literals = x :: y :: rest ∧
        Asserting t x (y :: rest) ∧ depth t y = 2 ∧
        ∃ u popped, t.backtrackTo 2 = .ok (u, popped) ∧ u.values.value? x.var = none ∧
          ∀ q ∈ y :: rest, u.values.literalValue? q = some false := by
  have run : ∃ f, Formula.ofClauses [[-3, 4], [-2, -3, 5], [-4, -5, -1]] = .ok f ∧
      ∃ (t : Trail) (next : Analyser) (c : Clause) (ls : List Literal), t.WellFormed f 5 ∧
        t.Recorded 5 ∧ (∀ s ∈ t.steps, s.literal.var < literalBound) ∧
        f.literalsAt 2 = some ls ∧ t.Refutes ls ∧ 0 < t.level ∧ (∃ q ∈ ls, t.FalseNow q) ∧
        (empty 5).analyse f t 2 = .ok (next, .ok (.learned c 2)) ∧
        c.literals.map Literal.toInt = [-3, -2, -1] ∧ c.lbd = 3 :=
    ⟨_, rfl,
      { steps := #[⟨⟨1, true⟩, 1, .decision⟩, ⟨⟨2, true⟩, 2, .decision⟩,
          ⟨⟨3, true⟩, 3, .decision⟩, ⟨⟨4, true⟩, 3, .clause 0⟩, ⟨⟨5, true⟩, 3, .clause 1⟩]
        head := 4
        levelOf := #[0, 1, 2, 3, 3, 3]
        positionOf := #[0, 0, 1, 2, 3, 4]
        levelStarts := #[0, 1, 2]
        values := ⟨#[none, some true, some true, some true, some true, some true], 5⟩ },
      _, _, _, by decide +kernel, by decide +kernel, by decide +kernel, rfl, by decide +kernel,
      by decide, ⟨⟨4, false⟩, by decide, 3, _, rfl, rfl, rfl⟩, rfl, by decide +kernel,
      by decide +kernel⟩
  obtain ⟨f, made, t, next, c, ls, wellFormed, recorded, represented, found, refuted, above,
    current, ran, literals, lbd⟩ := run
  obtain ⟨_, _, x, others, level, ran', asserting, shape, back⟩ :=
    analyse_asserting wellFormed (clear_empty 5) represented found refuted above current
  cases ran.symm.trans ran'
  obtain ⟨is_unit, _⟩ | ⟨d, y, rest, learned, shape, rfl, deepest, _⟩ := shape
  · cases is_unit
  · cases learned
    exact ⟨f, made, t, next, c, x, y, rest, wellFormed, recorded, ran, literals, lbd, shape,
      asserting, deepest, back recorded⟩

end Analyser

end ClauseLearning
