import ClauseLearning.Search
import ClauseLearning.Proofs.Analysis.Walk

/-!
# What is learnt from a conflict

Main statement: the analysis of a refuted clause above level 0 succeeds, clears its marks and yields
a lesson. The clause of a lesson holds in every model of the formula. Its first literal is false
because of the current level, the others are false by the level to go back to, and the second
literal because of that very level.

Two things follow for a trail that has closed its lower levels. After going back, the clause asserts
its first literal. And the clause is new: if a stored clause had the same literals, its first
literal would have been assigned before the current level was opened.

A collected literal is dropped when the clause that forced its complement has only marked variables
otherwise. Dropped literals keep their marks and may excuse each other, so that dropping is sound is
shown by induction along the trail.
-/

namespace ClauseLearning

namespace Analyser

/-! ### Clearing -/

/-- No variable is marked. -/
structure Clear (a : Analyser) (n : Nat) : Prop where
  size_eq : a.marks.size = n + 1
  unmarked : ∀ v : Variable, a.marks[v]? ≠ some true

theorem clear_empty (n : Nat) : (empty n).Clear n := by
  refine ⟨by simp [empty], fun v marked => ?_⟩
  simp [empty, Array.getElem?_replicate] at marked

theorem marked_of_foldl {v : Variable} (vars : List Variable) :
    ∀ marks : Array Bool,
      (vars.foldl (fun marks v => marks.setIfInBounds v false) marks)[v]? = some true →
        marks[v]? = some true ∧ v ∉ vars := by
  induction vars with
  | nil => simp
  | cons u rest ih =>
    intro marks marked
    obtain ⟨before, later⟩ := ih _ marked
    rw [Array.getElem?_setIfInBounds] at before
    split at before
    next => split at before <;> simp at before
    next different => exact ⟨before, by simp [Ne.symm different, later]⟩

theorem size_foldl (vars : List Variable) :
    ∀ marks : Array Bool,
      (vars.foldl (fun marks v => marks.setIfInBounds v false) marks).size = marks.size := by
  induction vars with
  | nil => simp
  | cons u rest ih =>
    intro marks
    rw [List.foldl_cons, ih, Array.size_setIfInBounds]

/-- Clearing reaches all marks: there are `size` of them, and every marked variable has been
noted. -/
structure Tracks (a : Analyser) (size : Nat) : Prop where
  size_eq : a.marks.size = size
  noted : ∀ {v : Variable}, a.marks[v]? = some true → v ∈ a.involved

theorem Tracks.cleared {a : Analyser} {size : Nat} (tracks : a.Tracks size) :
    a.clear.marks.size = size ∧ ∀ v : Variable, a.clear.marks[v]? ≠ some true := by
  rw [clear, ← Array.foldl_toList]
  refine ⟨(size_foldl _ _).trans tracks.size_eq, fun v marked => ?_⟩
  obtain ⟨before, missing⟩ := marked_of_foldl _ _ marked
  exact missing (Array.mem_toList_iff.2 (tracks.noted before))

theorem Traced.cleared {a : Analyser} {t : Trail} {n : Nat} (traced : a.Traced t n) :
    a.clear.Clear n := by
  have tracks : a.Tracks (n + 1) := ⟨traced.size_eq, traced.involved⟩
  exact ⟨tracks.cleared.1, tracks.cleared.2⟩

/-! ### Dropping literals -/

/-- The clause that made a literal false has, apart from this literal, only marked variables and
literals that are false by level 0. -/
def Redundant (f : Formula) (t : Trail) (marks : Array Bool) (l : Literal) : Prop :=
  ∃ (i : Nat) (s : Step) (place : Nat) (ls : List Literal), t.steps[i]? = some s ∧
    s.literal = -l ∧ s.reason = .clause place ∧ f.literalsAt place = some ls ∧
    ∀ q ∈ ls, q.var = l.var ∨ marks[q.var]? = some true ∨ t.HoldsBy 0 (-q)

section

variable {f : Formula} {t : Trail} {n : Nat} {marks : Array Bool}

open scoped Classical in
theorem allCovered_eq (charted : t.Charted n) (size_eq : marks.size = n + 1) (v : Variable)
    (ls : List Literal) (refuted : ∀ q ∈ ls, q.var ≠ v → t.Holds (-q)) :
    allCovered t marks v ls = .ok (decide
      (∀ q ∈ ls, q.var = v ∨ marks[q.var]? = some true ∨ t.HoldsBy 0 (-q))) := by
  induction ls with
  | nil => simp [allCovered]
  | cons q rest ih =>
    have rest_eq := ih fun r member => refuted r (List.mem_cons_of_mem _ member)
    unfold allCovered
    by_cases own : q.var = v
    · rw [if_pos own, rest_eq]
      simp [own]
    · rw [if_neg own]
      -- The literal is refuted, so its mark and its level are in the tables.
      obtain ⟨i, s, at_i, s_eq⟩ := refuted q (List.mem_cons_self ..) own
      have table := charted.levelOf at_i
      have declared := charted.declared at_i
      rw [s_eq, Literal.neg_var] at table declared
      have inside : q.var < marks.size := size_eq ▸ Nat.lt_succ_of_le declared
      have root_iff : t.HoldsBy 0 (-q) ↔ s.level = 0 := by
        rw [← s_eq, charted.holdsBy_iff at_i, Nat.le_zero]
      have level : t.varLevel q.var = .ok s.level := lookup_eq_ok_iff.2 table
      have mark : marks[q.var]? = some marks[q.var] := Array.getElem?_eq_getElem inside
      simp only [lookup_eq_ok inside, ok_bind, level, rest_eq, List.forall_mem_cons, own, mark,
        root_iff, Option.some.injEq, false_or]
      by_cases marked : marks[q.var] = true
      · simp [marked]
      · by_cases root : s.level = 0
        · simp [marked, root]
        · simp [marked, root]

open scoped Classical in
theorem isRedundant_eq (explained : t.Explained f n) (size_eq : marks.size = n + 1)
    {l : Literal} (refuted : t.Holds (-l)) :
    isRedundant f t marks l = .ok (decide (Redundant f t marks l)) := by
  obtain ⟨i, s, at_i, s_eq⟩ := refuted
  have reason : t.varReason l.var = .ok s.reason := by
    have position := explained.positionOf at_i
    rw [s_eq, Literal.neg_var] at position
    unfold Trail.varReason Trail.varPosition
    rw [lookup_eq_ok_iff.2 position, ok_bind, lookup_eq_ok_iff.2 at_i, ok_bind, pure_eq_ok]
  -- The step that made the literal false is the only one there is.
  have unique : ∀ {j : Nat} {r : Step}, t.steps[j]? = some r → r.literal = -l → r = s := by
    intro j r at_j r_eq
    exact explained.step_unique at_j at_i (by rw [r_eq, s_eq])
  unfold isRedundant
  rw [reason, ok_bind]
  cases forced : s.reason with
  | decision =>
    -- No clause has made the literal false, so it has to stay.
    have kept : ¬Redundant f t marks l := by
      rintro ⟨j, r, place, ls, at_j, r_eq, r_reason, _⟩
      rw [unique at_j r_eq, forced] at r_reason
      cases r_reason
    simp [kept]
  | clause place =>
    obtain ⟨ls, found, member, others⟩ := explained.justified at_i forced
    obtain ⟨c, at_place, rfl⟩ := Formula.literalsAt_eq_some.1 found
    have read : f.clause place = .ok c := lookup_eq_ok_iff.2 at_place
    have covered := allCovered_eq explained.toCharted size_eq l.var c.literals
      fun q q_mem other_var =>
        (others q q_mem fun equal => other_var (by rw [equal, s_eq, Literal.neg_var])).holds
    have redundant_iff : Redundant f t marks l ↔
        ∀ q ∈ c.literals, q.var = l.var ∨ marks[q.var]? = some true ∨ t.HoldsBy 0 (-q) := by
      constructor
      · rintro ⟨j, r, p, ms, at_j, r_eq, r_reason, at_p, all⟩
        rw [unique at_j r_eq, forced] at r_reason
        cases r_reason
        cases found.symm.trans at_p
        exact all
      · intro all
        exact ⟨i, s, place, c.literals, at_i, s_eq, forced, found, all⟩
    simp only [read, ok_bind, covered, redundant_iff]

open scoped Classical in
theorem minimise_eq (explained : t.Explained f n) (size_eq : marks.size = n + 1)
    (ls : List Literal) (refuted : t.Refutes ls) :
    minimise f t marks ls = .ok (ls.filter fun l => !decide (Redundant f t marks l)) := by
  induction ls with
  | nil => rfl
  | cons l rest ih =>
    have rest_eq := ih fun q member => refuted q (List.mem_cons_of_mem _ member)
    have redundant := isRedundant_eq explained size_eq (refuted l (List.mem_cons_self ..))
    unfold minimise
    rw [redundant, ok_bind, rest_eq, ok_bind, pure_eq_ok, List.filter_cons]
    by_cases dropped : Redundant f t marks l
    · simp [dropped]
    · simp [dropped]

/-- A true collected literal leaves a true literal that is not dropped, at its own position or an
earlier one. -/
theorem exists_true_kept (explained : t.Explained f n) {lower : List Literal}
    (marked_iff : ∀ q, q ∈ lower ↔ marks[q.var]? = some true ∧ t.Holds (-q)) {σ : Valuation}
    (models : f.Models σ) (i : Nat) :
    ∀ (s : Step) (q : Literal), t.steps[i]? = some s → s.literal = -q → q ∈ lower → q.IsTrue σ →
      ∃ r ∈ lower, ¬Redundant f t marks r ∧ r.IsTrue σ := by
  -- Strong induction along the trail: what a dropped literal is replaced by was refuted earlier.
  induction i using Nat.strong_induction_on with
  | _ i ih =>
    intro s q at_i s_eq q_mem true_q
    by_cases dropped : Redundant f t marks q
    · obtain ⟨j, r, place, ls, at_j, r_eq, forced, found, covered⟩ := dropped
      -- The clause that made `q` false has a true literal, and it is an earlier collected one.
      obtain ⟨u, u_mem, true_u⟩ := models place ls found
      obtain ⟨ms, at_place, _, others⟩ := explained.justified at_j forced
      cases found.symm.trans at_place
      have position := explained.position_unique at_i at_j (by rw [s_eq, r_eq])
      subst position
      have different : u ≠ -q := by
        intro equal
        rw [equal, Literal.isTrue_neg] at true_u
        exact true_u true_q
      obtain ⟨k, v, before, at_k, v_eq⟩ := others u u_mem (r_eq ▸ different)
      have refuted_u : t.Holds (-u) := ⟨k, v, at_k, v_eq⟩
      rcases covered u u_mem with same_var | marked | root
      · have other_var := explained.var_ne at_i ⟨k, v, before, at_k, v_eq⟩
        rw [s_eq, Literal.neg_var] at other_var
        exact absurd same_var other_var
      · exact ih k before v u at_k v_eq ((marked_iff u).2 ⟨marked, refuted_u⟩) true_u
      · exact absurd root (Walk.not_refuted_of_isTrue explained models true_u)
    · exact ⟨q, q_mem, dropped, true_q⟩

end

/-! ### The conclusion -/

theorem swapFirst_perm {α : Type} (i : Nat) (ls : List α) : (swapFirst i ls).Perm ls := by
  match ls, i with
  | [], _ => exact .refl _
  | a :: rest, 0 => exact .refl _
  | a :: rest, j + 1 =>
    cases found : rest[j]? with
    | none =>
      simp only [swapFirst, found]
      exact .refl _
    | some b =>
      simp only [swapFirst, found]
      obtain ⟨inside, rfl⟩ := List.getElem?_eq_some_iff.1 found
      exact ((List.set_perm_cons_eraseIdx inside a).cons _).trans
        ((List.Perm.swap ..).trans ((List.getElem_cons_eraseIdx_perm inside).cons a))

theorem head?_swapFirst {α : Type} {i : Nat} {ls : List α} {b : α} (found : ls[i]? = some b) :
    (swapFirst i ls).head? = some b := by
  match ls, i with
  | [], _ => simp at found
  | a :: rest, 0 => simpa [swapFirst] using found
  | a :: rest, j + 1 =>
    rw [List.getElem?_cons_succ] at found
    simp [swapFirst, found]

/-- The level of a variable's last assignment, 0 if there is no such variable. -/
def depth (t : Trail) (l : Literal) : Nat :=
  (t.levelOf[l.var]?).getD 0

theorem depth_eq {t : Trail} {n i : Nat} {s : Step} {l : Literal} (charted : t.Charted n)
    (at_i : t.steps[i]? = some s) (refuted : s.literal = -l) : depth t l = s.level := by
  have table := charted.levelOf at_i
  rw [refuted, Literal.neg_var] at table
  rw [depth, table, Option.getD_some]

theorem varLevel_eq {t : Trail} {n : Nat} {l : Literal} (charted : t.Charted n)
    (refuted : t.Holds (-l)) : t.varLevel l.var = .ok (depth t l) := by
  obtain ⟨i, s, at_i, s_eq⟩ := refuted
  have table := charted.levelOf at_i
  rw [s_eq, Literal.neg_var] at table
  rw [depth_eq charted at_i s_eq]
  exact lookup_eq_ok_iff.2 table

theorem levels_eq {t : Trail} {n : Nat} (charted : t.Charted n) (ls : List Literal)
    (refuted : t.Refutes ls) : levels t ls = .ok (ls.map (depth t)) := by
  induction ls with
  | nil => rfl
  | cons l rest ih =>
    have own := varLevel_eq charted (refuted l (List.mem_cons_self ..))
    have more := ih fun q member => refuted q (List.mem_cons_of_mem _ member)
    unfold levels
    rw [own, ok_bind, more, ok_bind]
    rfl

/-- What is concluded from the asserting literal and the others when all of them are refuted. -/
def conclusion (t : Trail) (a : Literal) (others : List Literal) : Conflict :=
  match (others.map (depth t)).max? with
  | none => .unit a
  | some deepest =>
    .learned (Clause.ofLearnt (a :: swapFirst ((others.map (depth t)).idxOf deepest) others)
      (countLevels ((a :: others).map (depth t)))) deepest

theorem conclude_eq {t : Trail} {n : Nat} {a : Literal} {others : List Literal}
    (charted : t.Charted n) (current : t.FalseNow a) (refuted : t.Refutes others) :
    conclude t a others = .ok (conclusion t a others) := by
  unfold conclude conclusion
  rw [levels_eq charted others refuted, ok_bind]
  cases (others.map (depth t)).max? with
  | none => rfl
  | some deepest =>
    simp only [varLevel_eq charted current.holds, ok_bind, pure_eq_ok, List.map_cons]

/-- A conclusion has the asserting literal alone, or it has one of the greatest level among the
others in second place and goes back to this level. -/
theorem conclusion_cases (t : Trail) (a : Literal) (others : List Literal) :
    others = [] ∧ conclusion t a others = .unit a ∨
      ∃ b rest, (b :: rest).Perm others ∧ (∀ q ∈ others, depth t q ≤ depth t b) ∧
        conclusion t a others = .learned
          (Clause.ofLearnt (a :: b :: rest) (countLevels ((a :: others).map (depth t))))
          (depth t b) := by
  unfold conclusion
  cases greatest : (others.map (depth t)).max? with
  | none =>
    have empty : others = [] := by simpa using List.max?_eq_none_iff.1 greatest
    exact .inl ⟨empty, rfl⟩
  | some deepest =>
    obtain ⟨member, largest⟩ := List.max?_eq_some_iff.1 greatest
    -- The element that comes first is the one at the first position of the greatest level.
    have inside := List.idxOf_lt_length_of_mem member
    have within : (others.map (depth t)).idxOf deepest < others.length := by
      simpa using inside
    have first := head?_swapFirst (List.getElem?_eq_getElem within)
    have value := List.getElem_idxOf inside
    rw [List.getElem_map] at value
    obtain ⟨rest, shape⟩ := List.head?_eq_some_iff.1 first
    refine .inr ⟨_, rest, shape ▸ swapFirst_perm _ others, ?_, ?_⟩
    · intro q q_mem
      rw [value]
      exact largest _ (List.mem_map_of_mem q_mem)
    · simp only [shape, value]

end Analyser

/-- The clause `a :: others` is learnt from a conflict, to be stored after going back to `level`. -/
structure Lesson (f : Formula) (t : Trail) (a : Literal) (others : List Literal) (level : Nat) :
    Prop where
  lower : level < t.level
  current : t.FalseNow a
  distinct : ((a :: others).map Literal.var).Nodup
  refuted : ∀ q ∈ others, t.HoldsBy level (-q)
  root : others = [] → level = 0
  second : ∀ {b : Literal} {rest : List Literal}, others = b :: rest →
    ∃ (i : Nat) (s : Step), t.steps[i]? = some s ∧ s.literal = -b ∧ s.level = level
  follows : ∀ σ, f.Models σ → SomeTrue σ (a :: others)

namespace Lesson

variable {f : Formula} {t : Trail} {a : Literal} {others : List Literal} {level : Nat}

theorem holds_neg (lesson : Lesson f t a others level) : t.Refutes (a :: others) := by
  intro q member
  rcases List.mem_cons.1 member with rfl | later
  · exact lesson.current.holds
  · exact (lesson.refuted q later).holds

/-- After going back, the first literal has no value. -/
theorem free (lesson : Lesson f t a others level) {n m : Nat} (located : t.Located n) {next : Trail}
    (recorded : next.Recorded m) (back : t.Backtracks level next) :
    next.values.value? a.var = none := by
  -- The only step of this variable was of the level that has been given up.
  have gone : ∀ {i : Nat} {s : Step}, next.steps[i]? = some s → s.literal.var ≠ a.var := by
    intro i s at_i same
    obtain ⟨old, low⟩ := back.steps_iff.1 at_i
    obtain ⟨j, r, at_j, refuted, current⟩ := lesson.current
    have equal := located.step_unique old at_j (by rw [refuted, Literal.neg_var, same])
    have lower := lesson.lower
    rw [equal] at low
    omega
  rw [recorded.value?_eq_none (l := a)]
  constructor
  · rintro ⟨i, s, at_i, same⟩
    exact gone at_i (by rw [same])
  · rintro ⟨i, s, at_i, same⟩
    exact gone at_i (by rw [same, Literal.neg_var])

/-- After going back, the other literals are still false. -/
theorem refutes (lesson : Lesson f t a others level) {next : Trail}
    (back : t.Backtracks level next) : next.Refutes others :=
  fun q member => ((back.holdsBy_iff (Nat.le_refl _)).2 (lesson.refuted q member)).holds

/-- After going back, the clause asserts its first literal. -/
theorem asserts (lesson : Lesson f t a others level) (coherent : t.Coherent f) {next : Trail}
    (valid : next.Valid f.numVars) (back : t.Backtracks level next) :
    next.Asserts f.numVars a others where
  positive l member := by
    obtain ⟨i, s, at_i, refuted⟩ := lesson.holds_neg l member
    have positive := coherent.valid.positive at_i
    rwa [refuted, Literal.neg_var] at positive
  declared l member := by
    obtain ⟨i, s, at_i, refuted⟩ := lesson.holds_neg l member
    have declared := coherent.valid.declared at_i
    rwa [refuted, Literal.neg_var] at declared
  distinct := lesson.distinct
  free := lesson.free coherent.valid.toLocated valid.toRecorded back
  refuted := lesson.refutes back
  root none_left := back.level_eq.trans (lesson.root none_left)
  second := by
    intro b rest shape
    obtain ⟨i, s, at_i, refuted, at_level⟩ := lesson.second shape
    exact ⟨i, s, back.steps_iff.2 ⟨at_i, Nat.le_of_eq at_level⟩, refuted,
      at_level.trans back.level_eq.symm⟩

/-- No stored clause has the same literals: it would have forced the first one earlier. -/
theorem novel (lesson : Lesson f t a others level) (coherent : t.Coherent f) {place : Nat}
    {ls : List Literal} (found : f.literalsAt place = some ls) :
    ¬∀ l, l ∈ ls ↔ l ∈ a :: others := by
  intro same
  have member : a ∈ ls := (same a).2 (List.mem_cons_self ..)
  have holds := coherent.closed level lesson.lower found a member fun q q_mem different =>
    lesson.refuted q ((List.mem_cons.1 ((same q).1 q_mem)).resolve_left different)
  exact coherent.valid.not_holds_neg holds.holds (lesson.holds_neg a (List.mem_cons_self ..))

end Lesson

namespace Analyser

/-- What an analysis leaves in the analyser. -/
structure Finished (a : Analyser) (f : Formula) (t : Trail) (n : Nat) : Prop where
  clear : a.Clear n
  involved_assigned : ∀ v ∈ a.involved,
    ∃ (i : Nat) (s : Step), t.steps[i]? = some s ∧ s.literal.var = v
  resolved_lt : ∀ place ∈ a.resolved, place < f.size

theorem Finished.involved_inside {a : Analyser} {f : Formula} {t : Trail} {n : Nat}
    (finished : a.Finished f t n) (valid : t.Valid n) : ∀ v ∈ a.involved, 0 < v ∧ v ≤ n := by
  intro v member
  obtain ⟨i, s, at_i, rfl⟩ := finished.involved_assigned v member
  exact ⟨valid.positive at_i, valid.declared at_i⟩

theorem analyse_root {a : Analyser} {f : Formula} {t : Trail} {place : Nat} (root : t.level = 0) :
    a.analyse f t place = .ok (⟨a.marks, #[], #[]⟩, .ok .ground) := by
  unfold analyse
  rw [if_pos root]
  rfl

open scoped Classical in
/-- The collected literals that are not redundant. -/
noncomputable def kept (f : Formula) (t : Trail) (w : Walk) : List Literal :=
  w.lower.reverse.filter fun q => !decide (Redundant f t w.analyser.marks q)

theorem mem_kept {f : Formula} {t : Trail} {w : Walk} {q : Literal} :
    q ∈ kept f t w ↔ q ∈ w.lower ∧ ¬Redundant f t w.analyser.marks q := by
  simp [kept]

/-- The end of a walk, with the redundant literals dropped and the others put in order. -/
theorem lesson_of_ended {f : Formula} {t : Trail} {n : Nat} {w : Walk} {l : Literal}
    {rest : List Literal} {level : Nat} (explained : t.Explained f n) (above : 0 < t.level)
    (ended : Walk.Ended f t n w l) (perm : rest.Perm (kept f t w)) (root : rest = [] → level = 0)
    (deepest : ∀ q ∈ rest, depth t q ≤ level) (first : ∀ b ∈ rest.head?, depth t b = level) :
    Lesson f t (-l) rest level := by
  have charted := explained.toCharted
  have mem_lower : ∀ {q : Literal}, q ∈ w.lower ↔ w.analyser.Has t q :=
    ended.tidy.mem_lower charted ended.none_open
  have lower_of_rest : ∀ q ∈ rest, q ∈ w.lower := fun q member =>
    (mem_kept.1 (perm.mem_iff.1 member)).1
  -- The collected literals were refuted below the current level.
  have step_of_rest : ∀ q ∈ rest, ∃ (i : Nat) (s : Step), t.steps[i]? = some s ∧ s.literal = -q ∧
      s.level = depth t q ∧ s.level < t.level := by
    intro q member
    obtain ⟨has, low⟩ := ended.tidy.lower_iff.1 (lower_of_rest q member)
    obtain ⟨i, s, at_i, s_eq⟩ := has.2
    refine ⟨i, s, at_i, s_eq, (depth_eq charted at_i s_eq).symm, ?_⟩
    have le := charted.level_le at_i
    exact Nat.lt_of_le_of_ne le fun current => low ⟨i, s, at_i, s_eq, current⟩
  refine ⟨?_, ended.current, ?_, ?_, root, ?_, ?_⟩
  · match rest, root, first, step_of_rest with
    | [], root, _, _ =>
      rw [root rfl]
      exact above
    | b :: more, _, first, step_of_rest =>
      obtain ⟨i, s, _, _, s_level, low⟩ := step_of_rest b (List.mem_cons_self ..)
      have level_eq := first b rfl
      omega
  · -- The literals are refuted, so different ones have different variables.
    have nodup : (-l :: rest).Nodup := by
      refine List.nodup_cons.2 ⟨fun member => ?_, ?_⟩
      · exact (ended.tidy.lower_iff.1 (lower_of_rest _ member)).2 ended.current
      · exact perm.nodup_iff.2 ((List.nodup_reverse.2 ended.tidy.lower_nodup).filter _)
    refine List.Nodup.map_on ?_ nodup
    have refuted : ∀ q ∈ -l :: rest, t.Holds (-q) := by
      intro q member
      rcases List.mem_cons.1 member with rfl | later
      · exact ended.current.holds
      · exact (mem_lower.1 (lower_of_rest q later)).2
    exact fun q q_mem r r_mem same =>
      charted.eq_of_refuted (refuted q q_mem) (refuted r r_mem) same
  · intro q member
    obtain ⟨i, s, at_i, s_eq, s_level, _⟩ := step_of_rest q member
    have le := deepest q member
    exact ⟨i, s, at_i, s_eq, by omega⟩
  · rintro b more rfl
    obtain ⟨i, s, at_i, s_eq, s_level, _⟩ := step_of_rest b (List.mem_cons_self ..)
    exact ⟨i, s, at_i, s_eq, s_level.trans (first b rfl)⟩
  · intro σ models
    obtain ⟨q, member, true_q⟩ := ended.follows σ models
    rcases List.mem_cons.1 member with rfl | lower
    · exact ⟨_, List.mem_cons_self .., true_q⟩
    · obtain ⟨i, s, at_i, s_eq⟩ := (mem_lower.1 lower).2
      obtain ⟨r, r_mem, not_redundant, true_r⟩ :=
        exists_true_kept explained (fun q => mem_lower) models i s q at_i s_eq lower true_q
      have r_kept := mem_kept.2 ⟨r_mem, not_redundant⟩
      exact ⟨r, List.mem_cons_of_mem _ (perm.mem_iff.2 r_kept), true_r⟩

/-- What an analysis returns when its walk has ended. Literals are dropped against all marks at
once, those of dropped literals included. -/
theorem analyse_of_ended {a : Analyser} {f : Formula} {t : Trail} {n place : Nat} {w : Walk}
    {l : Literal} (explained : t.Explained f n) (above : 0 < t.level)
    (ran : Walk.run f t place ⟨⟨a.marks, #[], #[]⟩, 0, []⟩ = .ok (w, .ok l))
    (ended : Walk.Ended f t n w l) :
    a.analyse f t place = .ok (w.analyser.clear, .ok (conclusion t (-l) (kept f t w))) := by
  have refuted : t.Refutes w.lower.reverse := fun q member =>
    (ended.tidy.lower_iff.1 (List.mem_reverse.1 member)).1.2
  have minimised : minimise f t w.analyser.marks w.lower.reverse = .ok (kept f t w) :=
    minimise_eq explained ended.tidy.traced.size_eq _ refuted
  have concluded : conclude t (-l) (kept f t w) = .ok (conclusion t (-l) (kept f t w)) :=
    conclude_eq explained.toCharted ended.current fun q member =>
      refuted q (List.mem_reverse.2 (mem_kept.1 member).1)
  have started : Walk.run f t place ⟨⟨a.marks, Array.empty, Array.empty⟩, 0, []⟩ =
      .ok (w, .ok l) := ran
  unfold analyse
  rw [if_neg (Nat.ne_of_gt above)]
  simp only [started, ok_bind, minimised, concluded, pure_eq_ok]

theorem analyse_ok {a : Analyser} {f : Formula} {t : Trail} {n place : Nat} {ls : List Literal}
    (explained : t.Explained f n) (found : f.literalsAt place = some ls) (refuted : t.Refutes ls)
    (above : 0 < t.level) (current : ∃ q ∈ ls, t.FalseNow q) (clear : a.Clear n) :
    ∃ next conflict c level x rest, a.analyse f t place = .ok (next, .ok conflict) ∧
      Search.lesson? conflict = some (c, level) ∧ c.literals = x :: rest ∧ c.deleted = false ∧
      Lesson f t x rest level ∧ next.Finished f t n := by
  obtain ⟨first, m, s, w, _, begins, halts, ran⟩ :=
    Walk.run_halts explained found refuted above current clear.size_eq clear.unmarked
  have ended := halts.ended explained begins
  have analysed := analyse_of_ended explained above ran ended
  have traced := ended.tidy.traced
  have finished : (w.release s.literal).analyser.clear.Finished f t n :=
    ⟨traced.cleared, traced.involved_assigned, ended.resolved⟩
  rcases conclusion_cases t (-s.literal) (kept f t (w.release s.literal)) with
    ⟨empty, is_unit⟩ | ⟨b, rest, perm, deepest, is_learned⟩
  · rw [is_unit] at analysed
    exact ⟨_, _, _, 0, _, [], analysed, rfl, rfl, rfl,
      lesson_of_ended explained above ended (by rw [empty]) (fun _ => rfl) (by simp) (by simp),
      finished⟩
  · rw [is_learned] at analysed
    refine ⟨_, _, _, _, _, b :: rest, analysed, rfl, rfl, rfl,
      lesson_of_ended explained above ended perm (by simp) ?_ ?_, finished⟩
    · exact fun q member => deepest q (perm.mem_iff.1 member)
    · rintro q ⟨⟩
      rfl

/-- Under a coherent trail every conflict above level 0 has a literal of the current level. -/
theorem analyse_of_coherent {a : Analyser} {f : Formula} {t : Trail} {place : Nat}
    {ls : List Literal} (coherent : t.Coherent f) (found : f.literalsAt place = some ls)
    (refuted : t.Refutes ls) (above : 0 < t.level) (clear : a.Clear f.numVars) :
    ∃ next conflict c level x rest, a.analyse f t place = .ok (next, .ok conflict) ∧
      Search.lesson? conflict = some (c, level) ∧ c.literals = x :: rest ∧ c.deleted = false ∧
      Lesson f t x rest level ∧ next.Finished f t f.numVars :=
  analyse_ok coherent.explained found refuted above (coherent.exists_current found refuted above)
    clear

/-- A conflict without a literal of the current level is reported as a breach. -/
theorem analyse_refused {a : Analyser} {f : Formula} {t : Trail} {n place : Nat}
    {ls : List Literal} (charted : t.Charted n) (found : f.literalsAt place = some ls)
    (refuted : t.Refutes ls) (above : 0 < t.level) (older : ¬∃ q ∈ ls, t.FalseNow q)
    (clear : a.Clear n) :
    ∃ next, a.analyse f t place = .ok (next, .error (.noLiteralAtLevel place t.level)) := by
  obtain ⟨w, ran⟩ :=
    Walk.run_refused charted found refuted above older clear.size_eq clear.unmarked
  have started : Walk.run f t place ⟨⟨a.marks, Array.empty, Array.empty⟩, 0, []⟩ =
      .ok (w, .error (.noLiteralAtLevel place t.level)) := ran
  refine ⟨w.analyser.clear, ?_⟩
  unfold analyse
  rw [if_neg (Nat.ne_of_gt above)]
  simp only [started, ok_bind, pure_eq_ok]

end Analyser

end ClauseLearning
