import ClauseLearning.Proofs.Trail.Valid

/-!
# Growing trails

Main statements: pushing an unassigned variable succeeds and keeps a trail valid, at the current
level with a clause for the reason or on a new level as a decision. `Extends` says what any number
of forced assignments does to a trail: it keeps all steps and adds others of the current level.
-/

namespace ClauseLearning.Trail

/-- The trail with one more step at the current level. -/
def pushed (t : Trail) (l : Literal) (r : Reason) : Trail :=
  { t with
    steps := t.steps.push ⟨l, t.level, r⟩
    levelOf := t.levelOf.setIfInBounds l.var t.level
    positionOf := t.positionOf.setIfInBounds l.var t.size
    values := ⟨t.values.slots.setIfInBounds l.var (some l.polarity), t.values.numAssigned + 1⟩ }

theorem Recorded.push_eq {t : Trail} {n : Nat} {l : Literal} (recorded : t.Recorded n)
    (declared : l.var ≤ n) (r : Reason) : t.push l r = .ok (t.pushed l r) := by
  have inside : l.var < n + 1 := Nat.lt_succ_of_le declared
  have slot : l.var < t.values.slots.size := recorded.slots_size ▸ inside
  have levelOf : l.var < t.levelOf.size := recorded.levelOf_size ▸ inside
  have positionOf : l.var < t.positionOf.size := recorded.positionOf_size ▸ inside
  simp [push, pushed, Assignment.assign, store, slot, levelOf, positionOf, level, size,
    Array.setIfInBounds]

@[simp] theorem size_pushed (t : Trail) (l : Literal) (r : Reason) :
    (t.pushed l r).size = t.size + 1 := by
  simp [pushed, size]

@[simp] theorem level_pushed (t : Trail) (l : Literal) (r : Reason) :
    (t.pushed l r).level = t.level := rfl

@[simp] theorem head_pushed (t : Trail) (l : Literal) (r : Reason) :
    (t.pushed l r).head = t.head := rfl

@[simp] theorem levelStarts_pushed (t : Trail) (l : Literal) (r : Reason) :
    (t.pushed l r).levelStarts = t.levelStarts := rfl

theorem getElem?_pushed (t : Trail) (l : Literal) (r : Reason) (i : Nat) :
    (t.pushed l r).steps[i]? = if i = t.size then some ⟨l, t.level, r⟩ else t.steps[i]? :=
  Array.getElem?_push

/-- The steps after a push are the old ones and the new one. -/
theorem getElem?_pushed_eq_some {t : Trail} {l : Literal} {r : Reason} {i : Nat} {s : Step} :
    (t.pushed l r).steps[i]? = some s ↔
      t.steps[i]? = some s ∨ i = t.size ∧ s = ⟨l, t.level, r⟩ := by
  rw [getElem?_pushed]
  split
  next last =>
    subst last
    have outside : t.steps[t.size]? = none := Array.getElem?_eq_none (Nat.le_refl _)
    simp [outside, eq_comm]
  next other => simp [other]

theorem Recorded.pushed {t : Trail} {n : Nat} {l : Literal} (recorded : t.Recorded n)
    (positive : 0 < l.var) (declared : l.var ≤ n) (free : t.values.value? l.var = none)
    (r : Reason) : (t.pushed l r).Recorded n := by
  -- The pushed variable is on no old step, so the old entries of the tables are not touched.
  have other : ∀ {i : Nat} {s : Step}, t.steps[i]? = some s → l.var ≠ s.literal.var := by
    intro i s at_i same
    have slot := recorded.slot at_i
    rw [← same] at slot
    simp [Assignment.value?, slot] at free
  have slots_size := recorded.slots_size
  refine
    { declared := ?_, levelOf := ?_, positionOf := ?_, levelOf_size := ?_, positionOf_size := ?_,
      slots_size := ?_, count_eq := ?_, positive := ?_, slot := ?_, assigned := ?_ }
  · intro i s at_i
    rcases getElem?_pushed_eq_some.1 at_i with old | ⟨_, rfl⟩
    · exact recorded.declared old
    · exact declared
  · intro i s at_i
    rcases getElem?_pushed_eq_some.1 at_i with old | ⟨_, rfl⟩
    · simp [Trail.pushed, other old, recorded.levelOf old]
    · simp [Trail.pushed, recorded.levelOf_size, Nat.lt_succ_of_le declared]
  · intro i s at_i
    rcases getElem?_pushed_eq_some.1 at_i with old | ⟨rfl, rfl⟩
    · simp [Trail.pushed, other old, recorded.positionOf old]
    · simp [Trail.pushed, recorded.positionOf_size, Nat.lt_succ_of_le declared]
  · simpa [Trail.pushed] using recorded.levelOf_size
  · simpa [Trail.pushed] using recorded.positionOf_size
  · simpa [Trail.pushed] using slots_size
  · rw [size_pushed, ← recorded.count_eq]
    rfl
  · intro i s at_i
    rcases getElem?_pushed_eq_some.1 at_i with old | ⟨_, rfl⟩
    · exact recorded.positive old
    · exact positive
  · intro i s at_i
    rcases getElem?_pushed_eq_some.1 at_i with old | ⟨_, rfl⟩
    · simp [Trail.pushed, other old, recorded.slot old]
    · simp [Trail.pushed, slots_size, Nat.lt_succ_of_le declared]
  · intro v b slot
    simp only [Trail.pushed, Array.getElem?_setIfInBounds] at slot
    split at slot
    next same =>
      subst same
      have polarity : l.polarity = b := by
        simpa [slots_size, Nat.lt_succ_of_le declared] using slot
      subst polarity
      exact ⟨t.size, _, getElem?_pushed_eq_some.2 (.inr ⟨rfl, rfl⟩), rfl⟩
    next different =>
      obtain ⟨i, s, at_i, same⟩ := recorded.assigned slot
      exact ⟨i, s, getElem?_pushed_eq_some.2 (.inl at_i), same⟩

/-- A forced assignment of a free variable succeeds and keeps the trail valid. -/
theorem Valid.push {t : Trail} {n : Nat} {l : Literal} (valid : t.Valid n) (positive : 0 < l.var)
    (declared : l.var ≤ n) (free : t.values.value? l.var = none) (place : Nat) :
    t.push l (.clause place) = .ok (t.pushed l (.clause place)) ∧
      (t.pushed l (.clause place)).Valid n := by
  refine ⟨valid.toRecorded.push_eq declared _,
    { valid.toRecorded.pushed positive declared free _ with
      level_le := ?_, start_le_iff := ?_, start := ?_, decision := ?_, head_le := ?_ }⟩
  · intro i s at_i
    rcases getElem?_pushed_eq_some.1 at_i with old | ⟨_, rfl⟩
    · exact valid.level_le old
    · exact Nat.le_refl _
  · intro k p i s found at_i
    rcases getElem?_pushed_eq_some.1 at_i with old | ⟨rfl, rfl⟩
    · exact valid.start_le_iff found old
    -- The new step comes after the start of every level and belongs to the last one.
    · obtain ⟨first, at_p, _, _⟩ := valid.start found
      exact iff_of_true (Nat.le_of_lt (lt_size at_p)) (Array.getElem?_eq_some_iff.1 found).1
  · intro k p found
    obtain ⟨first, at_p, decided, level⟩ := valid.start found
    exact ⟨first, getElem?_pushed_eq_some.2 (.inl at_p), decided, level⟩
  · intro i s at_i decided
    rcases getElem?_pushed_eq_some.1 at_i with old | ⟨_, rfl⟩
    · exact valid.decision old decided
    · cases decided
  · have head_le := valid.head_le
    rw [head_pushed, size_pushed]
    omega

@[simp] theorem level_openLevel (t : Trail) : t.openLevel.level = t.level + 1 := by
  simp [openLevel, level]

theorem getElem?_openLevel_eq_some {t : Trail} {k p : Nat} :
    t.openLevel.levelStarts[k]? = some p ↔
      t.levelStarts[k]? = some p ∨ k = t.level ∧ p = t.size := by
  rw [openLevel, Array.getElem?_push]
  split
  next last =>
    subst last
    simp [level, size, eq_comm]
  next other => simp [level, other]

/-- A decision of a free variable succeeds and keeps the trail valid. -/
theorem Valid.pushDecision {t : Trail} {n : Nat} {l : Literal} (valid : t.Valid n)
    (positive : 0 < l.var) (declared : l.var ≤ n) (free : t.values.value? l.var = none) :
    t.pushDecision l = .ok (t.openLevel.pushed l .decision) ∧
      (t.openLevel.pushed l .decision).Valid n := by
  have opened : t.openLevel.Recorded n := { valid.toRecorded with }
  refine ⟨opened.push_eq declared _,
    { opened.pushed positive declared free _ with
      level_le := ?_, start_le_iff := ?_, start := ?_, decision := ?_, head_le := ?_ }⟩
  · intro i s at_i
    rw [level_pushed, level_openLevel]
    rcases getElem?_pushed_eq_some.1 at_i with old | ⟨_, rfl⟩
    · exact Nat.le_succ_of_le (valid.level_le old)
    · exact Nat.le_of_eq (level_openLevel t)
  · intro k p i s found at_i
    rcases getElem?_openLevel_eq_some.1 found with earlier | ⟨rfl, rfl⟩
    · rcases getElem?_pushed_eq_some.1 at_i with old | ⟨rfl, rfl⟩
      · exact valid.start_le_iff earlier old
      · obtain ⟨first, at_p, _, _⟩ := valid.start earlier
        have below : k < t.level := (Array.getElem?_eq_some_iff.1 earlier).1
        have lower : k < t.openLevel.level := by
          rw [level_openLevel]
          omega
        exact iff_of_true (Nat.le_of_lt (lt_size at_p)) lower
    -- The new level starts behind all old steps.
    · rcases getElem?_pushed_eq_some.1 at_i with old | ⟨rfl, rfl⟩
      · exact iff_of_false (Nat.not_le.2 (lt_size old)) (Nat.not_lt.2 (valid.level_le old))
      · have lower : t.level < t.openLevel.level := by
          rw [level_openLevel]
          omega
        exact iff_of_true (Nat.le_refl _) lower
  · intro k p found
    rcases getElem?_openLevel_eq_some.1 found with earlier | ⟨rfl, rfl⟩
    · obtain ⟨first, at_p, decided, level⟩ := valid.start earlier
      exact ⟨first, getElem?_pushed_eq_some.2 (.inl at_p), decided, level⟩
    · exact ⟨_, getElem?_pushed_eq_some.2 (.inr ⟨rfl, rfl⟩), rfl, level_openLevel t⟩
  · intro i s at_i decided
    rcases getElem?_pushed_eq_some.1 at_i with old | ⟨rfl, rfl⟩
    · obtain ⟨k, level, found⟩ := valid.decision old decided
      exact ⟨k, level, getElem?_openLevel_eq_some.2 (.inl found)⟩
    · exact ⟨t.level, level_openLevel t, getElem?_openLevel_eq_some.2 (.inr ⟨rfl, rfl⟩)⟩
  · have head_le := valid.head_le
    rw [head_pushed, size_pushed]
    exact Nat.le_succ_of_le head_le

/-! ### Extensions -/

/-- `next` is `t` with forced assignments of the current level added. -/
structure Extends (t next : Trail) : Prop where
  keeps : ∀ {i : Nat} {s : Step}, t.steps[i]? = some s → next.steps[i]? = some s
  adds : ∀ {i : Nat} {s : Step}, next.steps[i]? = some s →
    t.steps[i]? = some s ∨ t.size ≤ i ∧ s.level = t.level
  levelStarts_eq : next.levelStarts = t.levelStarts

namespace Extends

theorem refl (t : Trail) : t.Extends t :=
  ⟨fun at_i => at_i, fun at_i => .inl at_i, rfl⟩

/-- Heads do not matter here. -/
theorem withHead {t next : Trail} (grows : t.Extends next) (before after : Nat) :
    ({ t with head := before }).Extends { next with head := after } :=
  ⟨grows.keeps, grows.adds, grows.levelStarts_eq⟩

theorem level_eq {t next : Trail} (grows : t.Extends next) : next.level = t.level := by
  rw [level, level, grows.levelStarts_eq]

theorem size_le {t next : Trail} (grows : t.Extends next) : t.size ≤ next.size := by
  by_contra shorter
  have inside : next.size < t.size := Nat.not_le.1 shorter
  have kept := grows.keeps (Array.getElem?_eq_getElem inside)
  exact absurd (lt_size kept) (Nat.lt_irrefl _)

theorem trans {t mid next : Trail} (first : t.Extends mid) (second : mid.Extends next) :
    t.Extends next where
  keeps at_i := second.keeps (first.keeps at_i)
  adds at_i := by
    rcases second.adds at_i with old | ⟨late, level⟩
    · exact first.adds old
    · exact .inr ⟨Nat.le_trans first.size_le late, level.trans first.level_eq⟩
  levelStarts_eq := second.levelStarts_eq.trans first.levelStarts_eq

/-- What has no value after the assignments had none before. -/
theorem free {t next : Trail} {n : Nat} {v : Variable} (grows : t.Extends next)
    (recorded : t.Recorded n) (recorded_next : next.Recorded n)
    (is_free : next.values.value? v = none) : t.values.value? v = none :=
  recorded.free_of_keeps recorded_next grows.keeps is_free

theorem holds {t next : Trail} {l : Literal} (grows : t.Extends next) (holds : t.Holds l) :
    next.Holds l := by
  obtain ⟨i, s, at_i, rfl⟩ := holds
  exact ⟨i, s, grows.keeps at_i, rfl⟩

theorem holdsBy {t next : Trail} {k : Nat} {l : Literal} (grows : t.Extends next)
    (holds : t.HoldsBy k l) : next.HoldsBy k l := by
  obtain ⟨i, s, at_i, rfl, level⟩ := holds
  exact ⟨i, s, grows.keeps at_i, rfl, level⟩

theorem holdsBefore {t next : Trail} {n : Nat} {l : Literal} (grows : t.Extends next)
    (holds : t.HoldsBefore n l) : next.HoldsBefore n l := by
  obtain ⟨i, s, before, at_i, rfl⟩ := holds
  exact ⟨i, s, before, grows.keeps at_i, rfl⟩

/-- Lower levels are not touched. -/
theorem holdsBy_iff {t next : Trail} {k : Nat} {l : Literal} (grows : t.Extends next)
    (lower : k < t.level) : next.HoldsBy k l ↔ t.HoldsBy k l := by
  constructor
  · rintro ⟨i, s, at_i, rfl, level⟩
    rcases grows.adds at_i with old | ⟨_, current⟩
    · exact ⟨i, s, old, rfl, level⟩
    · omega
  · exact grows.holdsBy

theorem pushed (t : Trail) (l : Literal) (r : Reason) : t.Extends (t.pushed l r) where
  keeps at_i := getElem?_pushed_eq_some.2 (.inl at_i)
  adds at_i := by
    rcases getElem?_pushed_eq_some.1 at_i with old | ⟨rfl, rfl⟩
    · exact .inl old
    · exact .inr ⟨Nat.le_refl _, rfl⟩
  levelStarts_eq := rfl

end Extends

theorem holds_pushed {t : Trail} {l q : Literal} {r : Reason} :
    (t.pushed l r).Holds q ↔ t.Holds q ∨ q = l := by
  constructor
  · rintro ⟨i, s, at_i, rfl⟩
    rcases getElem?_pushed_eq_some.1 at_i with old | ⟨_, rfl⟩
    · exact .inl ⟨i, s, old, rfl⟩
    · exact .inr rfl
  · rintro (holds | rfl)
    · exact (Extends.pushed t l r).holds holds
    · exact ⟨t.size, _, getElem?_pushed_eq_some.2 (.inr ⟨rfl, rfl⟩), rfl⟩

theorem holdsBy_pushed {t : Trail} {k : Nat} {l q : Literal} {r : Reason} :
    (t.pushed l r).HoldsBy k q ↔ t.HoldsBy k q ∨ q = l ∧ t.level ≤ k := by
  constructor
  · rintro ⟨i, s, at_i, rfl, level⟩
    rcases getElem?_pushed_eq_some.1 at_i with old | ⟨_, rfl⟩
    · exact .inl ⟨i, s, old, rfl, level⟩
    · exact .inr ⟨rfl, level⟩
  · rintro (holds | ⟨rfl, level⟩)
    · exact (Extends.pushed t l r).holdsBy holds
    · exact ⟨t.size, _, getElem?_pushed_eq_some.2 (.inr ⟨rfl, rfl⟩), rfl, level⟩

end ClauseLearning.Trail
