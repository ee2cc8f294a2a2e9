import ClauseLearning.Proofs.Trail.Push

/-!
# Going back

Main statement: going back from a valid trail to a level that is not above the current one succeeds,
keeps exactly the steps up to that level, and gives a valid trail again. The literals reported as
popped are those of the steps that are gone.
-/

namespace ClauseLearning.Trail

/-- `next` is what is left of `t` at level `k`. -/
structure Backtracks (t : Trail) (k : Nat) (next : Trail) : Prop where
  steps_iff : ∀ {i : Nat} {s : Step},
    next.steps[i]? = some s ↔ t.steps[i]? = some s ∧ s.level ≤ k
  level_eq : next.level = k
  head_eq : next.head = min t.head next.size

/-- The popped literals are those of the steps above level `k`. -/
def Pops (t : Trail) (k : Nat) (popped : List Literal) : Prop :=
  ∀ l, l ∈ popped ↔ ∃ (i : Nat) (s : Step), t.steps[i]? = some s ∧ k < s.level ∧ s.literal = l

theorem unassign_eq {values : Assignment} {v : Variable} {b : Bool}
    (slot : values.slots[v]? = some (some b)) :
    values.unassign v = .ok ⟨values.slots.setIfInBounds v none, values.numAssigned - 1⟩ := by
  obtain ⟨inside, entry⟩ := Array.getElem?_eq_some_iff.1 slot
  simp [Assignment.unassign, inside, entry, Array.setIfInBounds]

/-- `next` is `values` without the values of the variables of some literals. -/
structure Clears (values : Assignment) (ls : List Literal) (next : Assignment) : Prop where
  size_eq : next.slots.size = values.slots.size
  count_eq : next.numAssigned = values.numAssigned - ls.length
  slot_eq : ∀ v : Variable, next.slots[v]? =
    if v ∈ ls.map Literal.var then some none else values.slots[v]?

/-- Taking away the values of different assigned variables clears their slots and no others. -/
theorem unassignAll_ok (ls : List Literal) :
    ∀ values : Assignment, (∀ l ∈ ls, ∃ b, values.slots[l.var]? = some (some b)) →
      (ls.map Literal.var).Nodup →
      ∃ next, unassignAll values ls = .ok next ∧ Clears values ls next := by
  induction ls with
  | nil =>
    intro values _ _
    exact ⟨values, rfl, rfl, rfl, fun v => by simp⟩
  | cons l rest ih =>
    intro values assigned distinct
    simp only [List.map_cons, List.nodup_cons] at distinct
    obtain ⟨b, slot⟩ := assigned l (List.mem_cons_self ..)
    have inside := (Array.getElem?_eq_some_iff.1 slot).1
    -- The other variables are different, so their values are still there.
    have others : ∀ q ∈ rest,
        ∃ b, (values.slots.setIfInBounds l.var none)[q.var]? = some (some b) := by
      intro q member
      have different : l.var ≠ q.var := fun same =>
        distinct.1 (same ▸ List.mem_map_of_mem member)
      simpa [Array.getElem?_setIfInBounds_ne different] using
        assigned q (List.mem_cons_of_mem _ member)
    obtain ⟨next, ran, clears⟩ :=
      ih ⟨values.slots.setIfInBounds l.var none, values.numAssigned - 1⟩ others distinct.2
    refine ⟨next, ?_, ?_, ?_, ?_⟩
    · rw [unassignAll, unassign_eq slot, ok_bind, ran]
    · rw [clears.size_eq, Array.size_setIfInBounds]
    · rw [clears.count_eq, List.length_cons]
      dsimp only
      omega
    · intro v
      rw [clears.slot_eq, List.map_cons, Array.getElem?_setIfInBounds]
      by_cases same : l.var = v
      · subst same
        simp [distinct.1, inside]
      · have other : v ≠ l.var := fun equal => same equal.symm
        simp [same, other]

theorem Recorded.nodup_vars {t : Trail} {n : Nat} (recorded : t.Recorded n) :
    (t.steps.toList.map fun s => s.literal.var).Nodup := by
  rw [List.nodup_iff_getElem?_ne_getElem?]
  intro i j before inside same
  rw [List.length_map] at inside
  have at_j : t.steps[j]? = some t.steps[j] := Array.getElem?_eq_getElem (by simpa using inside)
  have inside_i : i < t.steps.size := Nat.lt_trans before (by simpa using inside)
  have at_i : t.steps[i]? = some t.steps[i] := Array.getElem?_eq_getElem inside_i
  simp only [List.getElem?_map, Array.getElem?_toList, at_i, at_j, Option.map_some,
    Option.some.injEq] at same
  exact absurd (recorded.position_unique at_i at_j same) (Nat.ne_of_lt before)

/-- The literals of the steps from a position on, the latest first. -/
def literalsFrom (t : Trail) (start : Nat) : List Literal :=
  ((t.steps.extract start t.steps.size).toList.map Step.literal).reverse

theorem mem_literalsFrom {t : Trail} {start : Nat} {l : Literal} :
    l ∈ t.literalsFrom start ↔
      ∃ (i : Nat) (s : Step), start ≤ i ∧ t.steps[i]? = some s ∧ s.literal = l := by
  rw [literalsFrom, List.mem_reverse, List.mem_map]
  simp only [List.mem_iff_getElem?, Array.getElem?_toList, Array.getElem?_extract, Nat.min_self]
  constructor
  · rintro ⟨s, ⟨i, found⟩, same⟩
    split at found
    · exact ⟨start + i, s, Nat.le_add_right .., found, same⟩
    · simp at found
  · rintro ⟨i, s, late, at_i, same⟩
    have inside : i < t.steps.size := lt_size at_i
    refine ⟨s, ⟨i - start, ?_⟩, same⟩
    rw [if_pos (by omega), Nat.add_sub_cancel' late, at_i]

theorem length_literalsFrom (t : Trail) (start : Nat) :
    (t.literalsFrom start).length = t.size - start := by
  simp [literalsFrom, size]

theorem Recorded.nodup_literalsFrom {t : Trail} {n : Nat} (recorded : t.Recorded n) (start : Nat) :
    ((t.literalsFrom start).map Literal.var).Nodup := by
  have rest : (t.steps.extract start t.steps.size).toList = t.steps.toList.drop start := by simp
  rw [literalsFrom, List.map_reverse, List.nodup_reverse, List.map_map, rest, List.map_drop]
  exact recorded.nodup_vars.sublist (List.drop_sublist _ _)

/-- The trail without the steps from a position on and the levels above `k`. -/
def cut (t : Trail) (k start : Nat) (values : Assignment) : Trail :=
  { t with
    steps := t.steps.take start
    head := min t.head start
    levelStarts := t.levelStarts.take k
    values := values }

theorem getElem?_take_eq_some {α : Type} {xs : Array α} {n i : Nat} {x : α} (le : n ≤ xs.size) :
    (xs.take n)[i]? = some x ↔ i < n ∧ xs[i]? = some x := by
  rw [Array.take_eq_extract, Array.getElem?_extract]
  simp only [Nat.min_eq_left le, Nat.sub_zero, Nat.zero_add]
  split <;> simp_all

theorem size_cut {t : Trail} {k start : Nat} {values : Assignment} (le : start ≤ t.size) :
    (t.cut k start values).size = start := by
  simp only [size, cut, Array.take_eq_extract, Array.size_extract] at le ⊢
  omega

theorem level_cut {t : Trail} {k start : Nat} {values : Assignment} (le : k ≤ t.level) :
    (t.cut k start values).level = k := by
  simp only [level, cut, Array.take_eq_extract, Array.size_extract] at le ⊢
  omega

theorem getElem?_cut {t : Trail} {k start i : Nat} {values : Assignment} {s : Step}
    (le : start ≤ t.size) :
    (t.cut k start values).steps[i]? = some s ↔ i < start ∧ t.steps[i]? = some s :=
  getElem?_take_eq_some le

/-- The steps before the start of the next level are those up to level `k`. -/
theorem Layered.lt_start_iff {t : Trail} {k start i : Nat} {s : Step} (layered : t.Layered)
    (found : t.levelStarts[k]? = some start) (at_i : t.steps[i]? = some s) :
    i < start ↔ s.level ≤ k := by
  have iff := layered.start_le_iff found at_i
  omega

theorem Layered.start_le_size {t : Trail} {k start : Nat} (layered : t.Layered)
    (found : t.levelStarts[k]? = some start) : start ≤ t.size := by
  obtain ⟨first, at_start, _, _⟩ := layered.start found
  exact Nat.le_of_lt (lt_size at_start)

/-- The tables agree with the steps that are left when the values of the others are cleared. -/
theorem Recorded.cut {t : Trail} {n k start : Nat} {values : Assignment} (recorded : t.Recorded n)
    (le : start ≤ t.size) (clears : Clears t.values (t.literalsFrom start) values) :
    (t.cut k start values).Recorded n where
  levelOf_size := recorded.levelOf_size
  positionOf_size := recorded.positionOf_size
  slots_size := clears.size_eq.trans recorded.slots_size
  count_eq := by
    rw [size_cut le]
    change values.numAssigned = start
    rw [clears.count_eq, recorded.count_eq, length_literalsFrom]
    omega
  positive at_i := recorded.positive ((getElem?_cut le).1 at_i).2
  declared at_i := recorded.declared ((getElem?_cut le).1 at_i).2
  slot := by
    intro i s at_i
    obtain ⟨before, old⟩ := (getElem?_cut le).1 at_i
    -- The variable is not on the trail twice, so it is not among those that are cleared.
    have kept : s.literal.var ∉ (t.literalsFrom start).map Literal.var := by
      intro member
      obtain ⟨l, popped, same⟩ := List.mem_map.1 member
      obtain ⟨j, r, late, at_j, rfl⟩ := mem_literalsFrom.1 popped
      have equal := recorded.position_unique at_j old same
      omega
    change values.slots[s.literal.var]? = _
    rw [clears.slot_eq, if_neg kept]
    exact recorded.slot old
  levelOf at_i := recorded.levelOf ((getElem?_cut le).1 at_i).2
  positionOf at_i := recorded.positionOf ((getElem?_cut le).1 at_i).2
  assigned := by
    intro v b slot
    change values.slots[v]? = some (some b) at slot
    rw [clears.slot_eq] at slot
    split at slot
    · simp at slot
    next absent =>
      obtain ⟨i, s, at_i, same⟩ := recorded.assigned slot
      have before : i < start := by
        by_contra late
        have popped := mem_literalsFrom.2 ⟨i, s, Nat.not_lt.1 late, at_i, same⟩
        exact absent (List.mem_map_of_mem popped)
      exact ⟨i, s, (getElem?_cut le).2 ⟨before, at_i⟩, same⟩

/-- The levels that are left start where they did. -/
theorem Layered.cut {t : Trail} {k start : Nat} {values : Assignment} (layered : t.Layered)
    (found : t.levelStarts[k]? = some start) : (t.cut k start values).Layered := by
  have le := layered.start_le_size found
  have lower : k ≤ t.level := Nat.le_of_lt (Array.getElem?_eq_some_iff.1 found).1
  have starts : ∀ {j p : Nat}, (t.cut k start values).levelStarts[j]? = some p ↔
      j < k ∧ t.levelStarts[j]? = some p := getElem?_take_eq_some lower
  refine ⟨?_, ?_, ?_, ?_⟩
  · intro i s at_i
    obtain ⟨before, old⟩ := (getElem?_cut le).1 at_i
    rw [level_cut lower]
    exact (layered.lt_start_iff found old).1 before
  · intro j p i s started at_i
    exact layered.start_le_iff (starts.1 started).2 ((getElem?_cut le).1 at_i).2
  · intro j p started
    obtain ⟨below, old⟩ := starts.1 started
    obtain ⟨s, at_p, decided, level⟩ := layered.start old
    -- The decision that opened the level has a level up to `k`, so it is not cut off.
    have before : p < start := (layered.lt_start_iff found at_p).2 (by omega)
    exact ⟨s, (getElem?_cut le).2 ⟨before, at_p⟩, decided, level⟩
  · intro i s at_i decided
    obtain ⟨before, old⟩ := (getElem?_cut le).1 at_i
    obtain ⟨j, level, started⟩ := layered.decision old decided
    have low := (layered.lt_start_iff found old).1 before
    exact ⟨j, level, starts.2 ⟨by omega, started⟩⟩

/-- Cutting where level `k + 1` starts leaves what there is at level `k`. -/
theorem Layered.backtracks_cut {t : Trail} {k start : Nat} {values : Assignment}
    (layered : t.Layered) (found : t.levelStarts[k]? = some start) :
    t.Backtracks k (t.cut k start values) := by
  have le := layered.start_le_size found
  refine ⟨?_, level_cut (Nat.le_of_lt (Array.getElem?_eq_some_iff.1 found).1), ?_⟩
  · intro i s
    rw [getElem?_cut le]
    constructor
    · rintro ⟨before, at_i⟩
      exact ⟨at_i, (layered.lt_start_iff found at_i).1 before⟩
    · rintro ⟨at_i, low⟩
      exact ⟨(layered.lt_start_iff found at_i).2 low, at_i⟩
  · rw [size_cut le]
    rfl

/-- Going back to a lower level cuts the trail where the next level starts and clears the values of
what comes after. -/
theorem Recorded.backtrackTo_eq {t : Trail} {n k start : Nat} (recorded : t.Recorded n)
    (found : t.levelStarts[k]? = some start) (start_le : start ≤ t.size) :
    ∃ values, t.backtrackTo k = .ok (t.cut k start values, t.literalsFrom start) ∧
      Clears t.values (t.literalsFrom start) values := by
  have not_above : ¬t.level < k := Nat.not_lt_of_gt (Array.getElem?_eq_some_iff.1 found).1
  have inside : ¬t.steps.size < start := Nat.not_lt.2 start_le
  have assigned : ∀ l ∈ t.literalsFrom start, ∃ b, t.values.slots[l.var]? = some (some b) := by
    intro l popped
    obtain ⟨i, s, _, at_i, rfl⟩ := mem_literalsFrom.1 popped
    exact ⟨_, recorded.slot at_i⟩
  obtain ⟨values, ran, clears⟩ :=
    unassignAll_ok _ t.values assigned (recorded.nodup_literalsFrom start)
  refine ⟨values, ?_, clears⟩
  rw [Trail.backtrackTo, if_neg not_above, found]
  simp only [if_neg inside]
  change (unassignAll t.values (t.literalsFrom start) >>= _) = _
  rw [ran]
  rfl

/-- Going back to a level that is not above the current one succeeds. -/
theorem Valid.backtrackTo {t : Trail} {n k : Nat} (valid : t.Valid n) (le : k ≤ t.level) :
    ∃ next popped, t.backtrackTo k = .ok (next, popped) ∧ next.Valid n ∧ t.Backtracks k next ∧
      t.Pops k popped := by
  cases found : t.levelStarts[k]? with
  | none =>
    -- The target is the current level: there is nothing above it.
    have not_above : ¬t.level < k := Nat.not_lt.2 le
    have same : k = t.level := Nat.le_antisymm le (Array.getElem?_eq_none_iff.1 found)
    refine ⟨t, [], by simp [Trail.backtrackTo, not_above, found], valid,
      ⟨?_, same.symm, (Nat.min_eq_left valid.head_le).symm⟩, ?_⟩
    · intro i s
      rw [same]
      exact ⟨fun at_i => ⟨at_i, valid.level_le at_i⟩, fun both => both.1⟩
    · intro l
      simp only [List.not_mem_nil, false_iff]
      rintro ⟨i, s, at_i, above, _⟩
      have low := valid.level_le at_i
      omega
  | some start =>
    have start_le : start ≤ t.size := valid.start_le_size found
    obtain ⟨values, ran, clears⟩ := valid.toRecorded.backtrackTo_eq found start_le
    refine ⟨t.cut k start values, t.literalsFrom start, ran,
      { valid.toRecorded.cut start_le clears, valid.toLayered.cut found with head_le := ?_ },
      valid.backtracks_cut found, ?_⟩
    · rw [size_cut start_le]
      exact Nat.min_le_right _ _
    · intro l
      rw [mem_literalsFrom]
      constructor
      · rintro ⟨i, s, late, at_i, same⟩
        exact ⟨i, s, at_i, (valid.start_le_iff found at_i).1 late, same⟩
      · rintro ⟨i, s, at_i, above, same⟩
        exact ⟨i, s, (valid.start_le_iff found at_i).2 above, at_i, same⟩

namespace Backtracks

theorem keeps {t next : Trail} {k i : Nat} {s : Step} (back : t.Backtracks k next)
    (at_i : next.steps[i]? = some s) : t.steps[i]? = some s :=
  (back.steps_iff.1 at_i).1

theorem holdsBy_iff {t next : Trail} {k m : Nat} {l : Literal} (back : t.Backtracks k next)
    (low : m ≤ k) : next.HoldsBy m l ↔ t.HoldsBy m l := by
  constructor
  · rintro ⟨i, s, at_i, rfl, level⟩
    exact ⟨i, s, back.keeps at_i, rfl, level⟩
  · rintro ⟨i, s, at_i, rfl, level⟩
    exact ⟨i, s, back.steps_iff.2 ⟨at_i, Nat.le_trans level low⟩, rfl, level⟩

end Backtracks

end ClauseLearning.Trail
