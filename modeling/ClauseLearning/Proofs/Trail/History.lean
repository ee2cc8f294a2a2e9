import ClauseLearning.Proofs.Runs
import ClauseLearning.Proofs.Trail.Backtrack

/-!
# Going back undoes exactly what was done

A trail is changed by assignments, by decisions, by going back and by moving its head. A trail that
goes back to a level must become what it was before the next level was opened for the last time,
however often levels were opened and left before.

Main statement: after any sequence of changes from the empty trail, going back to a lower level
gives back the steps, the starts of the levels and the values of that moment. Any reason may come
with an assignment, so the decisions on the trail do not tell where the levels start.
-/

namespace ClauseLearning.Trail

/-- One change of a trail. -/
inductive Move where
  | push (l : Literal) (reason : Reason)
  | decide (l : Literal)
  | backtrack (target : Nat)
  | advance (head : Nat)
deriving DecidableEq, Repr

/-- Going back above the current level is refused, and the trail stays as it is. -/
def move (t : Trail) : Move → Except Fault Trail
  | .push l reason => t.push l reason
  | .decide l => t.pushDecision l
  | .backtrack target =>
    match t.backtrackTo target with
    | .ok (next, _) => .ok next
    | .error (.breach _) => .ok t
    | .error fault => .error fault
  | .advance head => .ok { t with head := head }

/-- Only variables of `1, …, n` without a value are assigned, and the head moves forward up to the
end. -/
def permits (n : Nat) (t : Trail) : Move → Prop
  | .push l _ => 0 < l.var ∧ l.var ≤ n ∧ t.values.value? l.var = none
  | .decide l => 0 < l.var ∧ l.var ≤ n ∧ t.values.value? l.var = none
  | .backtrack _ => True
  | .advance head => t.head ≤ head ∧ head ≤ t.size

instance (n : Nat) (t : Trail) : ∀ m, Decidable (t.permits n m)
  | .push l _ => inferInstanceAs (Decidable (0 < l.var ∧ l.var ≤ n ∧ t.values.value? l.var = none))
  | .decide l => inferInstanceAs (Decidable (0 < l.var ∧ l.var ≤ n ∧ t.values.value? l.var = none))
  | .backtrack _ => inferInstanceAs (Decidable True)
  | .advance head => inferInstanceAs (Decidable (t.head ≤ head ∧ head ≤ t.size))

/-! ### Trails in order -/

/-- Levels start one after the other, inside the trail. -/
structure Stacked (t : Trail) : Prop where
  start_le : ∀ {k p : Nat}, t.levelStarts[k]? = some p → p ≤ t.size
  mono : ∀ {j k p q : Nat}, j ≤ k → t.levelStarts[j]? = some p → t.levelStarts[k]? = some q → p ≤ q

variable {t u : Trail} {n : Nat}

theorem stacked_empty (n : Nat) : (empty n).Stacked where
  start_le found := by simp [levelStarts_empty] at found
  mono _ found := by simp [levelStarts_empty] at found

theorem Stacked.pushed (stacked : t.Stacked) (l : Literal) (r : Reason) :
    (t.pushed l r).Stacked where
  start_le found := by
    rw [size_pushed]
    exact Nat.le_succ_of_le (stacked.start_le found)
  mono := stacked.mono

theorem Stacked.openLevel (stacked : t.Stacked) : t.openLevel.Stacked where
  start_le found := by
    rcases getElem?_openLevel_eq_some.1 found with old | ⟨_, rfl⟩
    · exact stacked.start_le old
    · exact Nat.le_refl _
  mono := by
    intro j k p q le found_j found_k
    rcases getElem?_openLevel_eq_some.1 found_k with old_k | ⟨rfl, rfl⟩
    · have below : k < t.level := (Array.getElem?_eq_some_iff.1 old_k).1
      rcases getElem?_openLevel_eq_some.1 found_j with old_j | ⟨rfl, _⟩
      · exact stacked.mono le old_j old_k
      · omega
    · rcases getElem?_openLevel_eq_some.1 found_j with old_j | ⟨_, rfl⟩
      · exact stacked.start_le old_j
      · exact Nat.le_refl _

theorem Stacked.cut {k start : Nat} {values : Assignment} (stacked : t.Stacked)
    (found : t.levelStarts[k]? = some start) : (t.cut k start values).Stacked := by
  have lower : k ≤ t.level := Nat.le_of_lt (Array.getElem?_eq_some_iff.1 found).1
  have starts : ∀ {j p : Nat}, (t.cut k start values).levelStarts[j]? = some p ↔
      j < k ∧ t.levelStarts[j]? = some p := getElem?_take_eq_some lower
  refine ⟨fun {j p} found_j => ?_, fun le found_j found_k => ?_⟩
  · obtain ⟨below, old⟩ := starts.1 found_j
    rw [size_cut (stacked.start_le found)]
    exact stacked.mono (Nat.le_of_lt below) old found
  · exact stacked.mono le (starts.1 found_j).2 (starts.1 found_k).2

theorem Stacked.of_extends {next : Trail} (stacked : t.Stacked) (grows : t.Extends next) :
    next.Stacked where
  start_le found := by
    rw [grows.levelStarts_eq] at found
    exact Nat.le_trans (stacked.start_le found) grows.size_le
  mono := by
    rw [grows.levelStarts_eq]
    exact stacked.mono

/-- The tables of a trail agree with its steps, and its levels start in order. -/
structure Regular (t : Trail) (n : Nat) : Prop where
  recorded : t.Recorded n
  stacked : t.Stacked

theorem regular_empty (n : Nat) : (empty n).Regular n :=
  ⟨(valid_empty n).toRecorded, stacked_empty n⟩

namespace Regular

variable (regular : t.Regular n)

include regular

theorem push {l : Literal} (positive : 0 < l.var) (declared : l.var ≤ n)
    (free : t.values.value? l.var = none) (r : Reason) :
    t.move (.push l r) = .ok (t.pushed l r) ∧ (t.pushed l r).Regular n :=
  ⟨regular.recorded.push_eq declared r, regular.recorded.pushed positive declared free r,
    regular.stacked.pushed l r⟩

theorem decide {l : Literal} (positive : 0 < l.var) (declared : l.var ≤ n)
    (free : t.values.value? l.var = none) :
    t.move (.decide l) = .ok (t.openLevel.pushed l .decision) ∧
      (t.openLevel.pushed l .decision).Regular n := by
  have opened : t.openLevel.Recorded n := { regular.recorded with }
  exact ⟨opened.push_eq declared _, opened.pushed positive declared free _,
    regular.stacked.openLevel.pushed l _⟩

theorem backtrack {target start : Nat} (found : t.levelStarts[target]? = some start) :
    ∃ values, t.move (.backtrack target) = .ok (t.cut target start values) ∧
      (t.cut target start values).Regular n := by
  have le := regular.stacked.start_le found
  obtain ⟨values, ran, clears⟩ := regular.recorded.backtrackTo_eq found le
  exact ⟨values, by simp [Trail.move, ran], regular.recorded.cut le clears,
    regular.stacked.cut found⟩

omit regular in
/-- Nothing changes if the target is the current level or above it. -/
theorem backtrack_eq {target : Nat} (outside : t.levelStarts[target]? = none) :
    t.move (.backtrack target) = .ok t := by
  by_cases above : t.level < target
  · simp [Trail.move, Trail.backtrackTo, above]
  · simp [Trail.move, Trail.backtrackTo, above, outside]

theorem withHead (head : Nat) : ({ t with head := head }).Regular n :=
  ⟨{ regular.recorded with }, { regular.stacked with }⟩

/-- Every permitted move succeeds and leaves the trail regular. -/
theorem move {m : Move} (permitted : t.permits n m) :
    ∃ next, t.move m = .ok next ∧ next.Regular n := by
  cases m with
  | push l r => exact ⟨_, regular.push permitted.1 permitted.2.1 permitted.2.2 r⟩
  | decide l => exact ⟨_, regular.decide permitted.1 permitted.2.1 permitted.2.2⟩
  | backtrack target =>
    cases found : t.levelStarts[target]? with
    | none => exact ⟨t, backtrack_eq found, regular⟩
    | some start =>
      obtain ⟨values, moved, regular_cut⟩ := regular.backtrack found
      exact ⟨_, moved, regular_cut⟩
  | advance head => exact ⟨_, rfl, regular.withHead head⟩

end Regular

/-- The steps give a variable its value. -/
theorem Recorded.slot_eq (recorded : t.Recorded n) (recorded_u : u.Recorded n)
    (steps : t.steps = u.steps) {v : Variable} {b : Bool}
    (slot : t.values.slots[v]? = some (some b)) : u.values.slots[v]? = some (some b) := by
  obtain ⟨i, s, at_i, same⟩ := recorded.assigned slot
  rw [steps] at at_i
  have slot_u := recorded_u.slot at_i
  rwa [same] at slot_u

/-- Trails with the same steps have the same values. -/
theorem Recorded.values_eq (recorded : t.Recorded n) (recorded_u : u.Recorded n)
    (steps : t.steps = u.steps) : t.values = u.values := by
  have size_eq : t.values.slots.size = u.values.slots.size :=
    recorded.slots_size.trans recorded_u.slots_size.symm
  have slots : t.values.slots = u.values.slots := by
    refine Array.ext size_eq fun v inside inside_u => ?_
    have at_v : t.values.slots[v]? = some t.values.slots[v] := Array.getElem?_eq_getElem inside
    have at_u : u.values.slots[v]? = some u.values.slots[v] := Array.getElem?_eq_getElem inside_u
    cases value : t.values.slots[v] with
    | some b =>
      rw [value] at at_v
      rw [recorded.slot_eq recorded_u steps at_v] at at_u
      exact Option.some.inj at_u
    | none =>
      cases value_u : u.values.slots[v] with
      | none => rfl
      | some b =>
        rw [value_u] at at_u
        rw [recorded_u.slot_eq recorded steps.symm at_u, value] at at_v
        cases at_v
  have count : t.values.numAssigned = u.values.numAssigned := by
    rw [recorded.count_eq, recorded_u.count_eq, size, size, steps]
  calc t.values = ⟨t.values.slots, t.values.numAssigned⟩ := rfl
    _ = ⟨u.values.slots, u.values.numAssigned⟩ := by rw [slots, count]
    _ = u.values := rfl

/-! ### What a trail was before -/

/-- `u` is what `t` was when the level above that of `u` was opened. -/
structure Under (u t : Trail) : Prop where
  start : t.levelStarts[u.level]? = some u.size
  steps : u.steps.toList <+: t.steps.toList
  starts : u.levelStarts.toList <+: t.levelStarts.toList

theorem under_openLevel (t : Trail) : t.Under t.openLevel where
  start := getElem?_openLevel_eq_some.2 (.inr ⟨rfl, rfl⟩)
  steps := List.prefix_rfl
  starts := by simp [openLevel]

theorem Under.openLevel (under : u.Under t) : u.Under t.openLevel where
  start := getElem?_openLevel_eq_some.2 (.inl under.start)
  steps := under.steps
  starts := under.starts.trans (by simp [Trail.openLevel])

theorem Under.pushed (under : u.Under t) (l : Literal) (r : Reason) :
    u.Under (t.pushed l r) where
  start := under.start
  steps := under.steps.trans (by simp [Trail.pushed])
  starts := under.starts

/-- Going back to a level above that of `u` does not touch what `u` had. -/
theorem Under.cut {k start : Nat} {values : Assignment} (under : u.Under t) (stacked : t.Stacked)
    (found : t.levelStarts[k]? = some start) (above : u.level < k) :
    u.Under (t.cut k start values) where
  start := by
    have lower : k ≤ t.level := Nat.le_of_lt (Array.getElem?_eq_some_iff.1 found).1
    exact (getElem?_take_eq_some lower).2 ⟨above, under.start⟩
  steps := by
    have before : u.size ≤ start := stacked.mono (Nat.le_of_lt above) under.start found
    simpa [Trail.cut, List.prefix_take_iff] using ⟨under.steps, before⟩
  starts := by
    simpa [Trail.cut, List.prefix_take_iff] using ⟨under.starts, Nat.le_of_lt above⟩

/-- Going back to the level of `u` gives back what `u` had. -/
theorem Under.backtrackTo (under : u.Under t) (recorded : t.Recorded n)
    (recorded_u : u.Recorded n) :
    ∃ next, t.backtrackTo u.level = .ok (next, t.literalsFrom u.size) ∧ next.steps = u.steps ∧
      next.levelStarts = u.levelStarts ∧ next.values = u.values ∧
      next.head = min t.head next.size := by
  have le : u.size ≤ t.size := by simpa [size] using under.steps.length_le
  obtain ⟨values, ran, clears⟩ := recorded.backtrackTo_eq under.start le
  have steps : (t.cut u.level u.size values).steps = u.steps := by
    have taken := List.prefix_iff_eq_take.1 under.steps
    rw [← Array.toList_inj, taken]
    simp [Trail.cut, size]
  have starts : (t.cut u.level u.size values).levelStarts = u.levelStarts := by
    have taken := List.prefix_iff_eq_take.1 under.starts
    rw [← Array.toList_inj, taken]
    simp [Trail.cut, level]
  refine ⟨_, ran, steps, starts, (recorded.cut le clears).values_eq recorded_u steps, ?_⟩
  rw [size_cut le]
  rfl

/-! ### Moments of a sequence -/

/-- The moves `before` have led to `u` at level `k`, and the next move opens level `k + 1`. -/
def Opens (n : Nat) (ms : List Move) (k : Nat) (before : List Move) (u : Trail) : Prop :=
  ∃ l after, ms = before ++ .decide l :: after ∧ before.foldlM move (empty n) = .ok u ∧ u.level = k

/-- The trail is `u` just before level `k + 1` is opened for the last time. -/
def LastBefore (n : Nat) (ms : List Move) (k : Nat) (u : Trail) : Prop :=
  ∃ before, Opens n ms k before u ∧
    ∀ other v, Opens n ms k other v → other.length ≤ before.length

variable {ms : List Move} {k : Nat}

theorem LastBefore.level_eq (last : LastBefore n ms k u) : u.level = k := by
  obtain ⟨_, ⟨_, _, _, _, level⟩, _⟩ := last
  exact level

/-- A move that does not open level `k + 1` changes nothing about the last time it was opened. -/
theorem LastBefore.snoc {m : Move} (last : LastBefore n ms k u)
    (different : ∀ l v, m = .decide l → ms.foldlM move (empty n) = .ok v → v.level ≠ k) :
    LastBefore n (ms ++ [m]) k u := by
  obtain ⟨before, ⟨l, after, split_at, ran, level⟩, latest⟩ := last
  refine ⟨before, ⟨l, after ++ [m], by simp [split_at], ran, level⟩, ?_⟩
  rintro other v ⟨q, rest, same, ran_other, level_other⟩
  rcases List.eq_nil_or_concat rest with rfl | ⟨rest, x, rfl⟩
  · obtain ⟨rfl, rfl⟩ := List.append_singleton_inj.1 same
    exact absurd level_other (different q v rfl ran_other)
  · rw [List.concat_eq_append, ← List.cons_append, ← List.append_assoc] at same
    obtain ⟨earlier, rfl⟩ := List.append_singleton_inj.1 same
    exact latest other v ⟨q, rest, earlier, ran_other, level_other⟩

theorem lastBefore_decide (ran : ms.foldlM move (empty n) = .ok t) (l : Literal) :
    LastBefore n (ms ++ [.decide l]) t.level t := by
  refine ⟨ms, ⟨l, [], rfl, ran, rfl⟩, ?_⟩
  rintro other v ⟨q, rest, same, _, _⟩
  have length := congrArg List.length same
  simp only [List.length_append, List.length_cons, List.length_nil] at length
  omega

/-- The moves have led to `t`, and below it is what the trail was before each of its levels was
opened for the last time. -/
structure Remembers (n : Nat) (ms : List Move) (t : Trail) : Prop where
  ran : ms.foldlM move (empty n) = .ok t
  regular : t.Regular n
  under : ∀ k < t.level, ∃ u, LastBefore n ms k u ∧ u.Recorded n ∧ u.Under t

theorem remembers_empty (n : Nat) : Remembers n [] (empty n) where
  ran := rfl
  regular := regular_empty n
  under _ below := absurd below (Nat.not_lt_zero _)

/-- A move that opens no level keeps what the levels that are left were opened on. -/
theorem Remembers.snoc {m : Move} {next : Trail} (remembers : Remembers n ms t)
    (moved : t.move m = .ok next) (regular : next.Regular n) (opens_none : ∀ l, m ≠ .decide l)
    (lower : next.level ≤ t.level)
    (keeps : ∀ {u : Trail}, u.level < next.level → u.Under t → u.Under next) :
    Remembers n (ms ++ [m]) next where
  ran := foldlM_snoc_eq_ok remembers.ran moved
  regular := regular
  under k below := by
    obtain ⟨u, last, recorded_u, under⟩ := remembers.under k (Nat.lt_of_lt_of_le below lower)
    exact ⟨u, last.snoc fun l _ same => absurd same (opens_none l), recorded_u,
      keeps (last.level_eq ▸ below) under⟩

theorem Remembers.decide {l : Literal} (remembers : Remembers n ms t) (positive : 0 < l.var)
    (declared : l.var ≤ n) (free : t.values.value? l.var = none) :
    ∃ next, t.move (.decide l) = .ok next ∧ Remembers n (ms ++ [.decide l]) next := by
  obtain ⟨moved, regular⟩ := remembers.regular.decide positive declared free
  refine ⟨_, moved, foldlM_snoc_eq_ok remembers.ran moved, regular, fun k below => ?_⟩
  rw [level_pushed, level_openLevel] at below
  rcases Nat.lt_succ_iff_lt_or_eq.1 below with lower | rfl
  · obtain ⟨u, last, recorded_u, under⟩ := remembers.under k lower
    refine ⟨u, last.snoc fun _ v _ ran same => ?_, recorded_u, under.openLevel.pushed l _⟩
    cases remembers.ran.symm.trans ran
    omega
  · exact ⟨t, lastBefore_decide remembers.ran l, remembers.regular.recorded,
      (under_openLevel t).pushed l _⟩

/-- Every permitted move succeeds, and what the levels were opened on stays below them. -/
theorem Remembers.move {m : Move} (remembers : Remembers n ms t) (permitted : t.permits n m) :
    ∃ next, t.move m = .ok next ∧ Remembers n (ms ++ [m]) next := by
  have regular := remembers.regular
  cases m with
  | push l r =>
    obtain ⟨moved, regular_next⟩ := regular.push permitted.1 permitted.2.1 permitted.2.2 r
    exact ⟨_, moved, remembers.snoc moved regular_next nofun (Nat.le_refl _)
      fun _ under => under.pushed l r⟩
  | decide l => exact remembers.decide permitted.1 permitted.2.1 permitted.2.2
  | backtrack target =>
    cases found : t.levelStarts[target]? with
    | none =>
      have moved := Regular.backtrack_eq found
      exact ⟨t, moved, remembers.snoc moved regular nofun (Nat.le_refl _) fun _ under => under⟩
    | some start =>
      obtain ⟨values, moved, regular_next⟩ := regular.backtrack found
      have lower : target ≤ t.level := Nat.le_of_lt (Array.getElem?_eq_some_iff.1 found).1
      have level_eq : (t.cut target start values).level = target := level_cut lower
      refine ⟨_, moved, remembers.snoc moved regular_next nofun (Nat.le_trans level_eq.le lower)
        fun below under => under.cut regular.stacked found ?_⟩
      rwa [level_eq] at below
  | advance head =>
    exact ⟨_, rfl, remembers.snoc rfl (regular.withHead head) nofun (Nat.le_refl _)
      fun _ under => { under with }⟩

/-- After any permitted moves, going back to a lower level gives the steps, the starts of the levels
and the values of the moment before the next level was opened for the last time. The popped literals
are reported once each, the latest first. Going back to the current level changes nothing, and going
back above it is refused. -/
theorem backtrackTo_undoes (permitted : Permitted (permits n) move ms (empty n)) :
    ∃ t, ms.foldlM move (empty n) = .ok t ∧
      (∀ k < t.level, ∃ u next popped, LastBefore n ms k u ∧
        t.backtrackTo k = .ok (next, popped) ∧ next.steps = u.steps ∧
        next.levelStarts = u.levelStarts ∧ next.values = u.values ∧
        next.head = min t.head next.size ∧
        popped = ((t.steps.toList.drop next.size).map Step.literal).reverse ∧ popped.Nodup) ∧
      t.backtrackTo t.level = .ok (t, []) ∧
      ∀ k, t.level < k → t.backtrackTo k = .error (.breach (.backjumpAbove k t.level)) := by
  obtain ⟨t, ran, remembers⟩ :=
    Permitted.run_after (fun remembers => remembers.move) ms permitted (remembers_empty n)
  refine ⟨t, ran, fun k below => ?_, ?_, fun k above => by rw [backtrackTo, if_pos above]⟩
  · obtain ⟨u, last, recorded_u, under⟩ := remembers.under k below
    obtain ⟨next, back, steps, starts, values, head⟩ :=
      under.backtrackTo remembers.regular.recorded recorded_u
    rw [last.level_eq] at back
    refine ⟨u, next, _, last, back, steps, starts, values, head, ?_, ?_⟩
    · simp [literalsFrom, size, steps]
    · exact (remembers.regular.recorded.nodup_literalsFrom u.size).of_map
  · have outside : t.levelStarts[t.level]? = none := Array.getElem?_eq_none (Nat.le_refl _)
    rw [backtrackTo, if_neg (Nat.lt_irrefl _), outside]

/-- Level 1 is opened, left and opened again; the step after the last decision calls itself a
decision too. -/
def reopened : List Move :=
  [.push ⟨4, true⟩ (.clause 0), .decide ⟨1, true⟩, .decide ⟨2, true⟩, .advance 2, .backtrack 5,
    .backtrack 0, .push ⟨3, false⟩ (.clause 1), .decide ⟨2, false⟩, .push ⟨1, false⟩ .decision,
    .advance 4]

theorem backtrackTo_undoes_reopened :
    ∃ t u next, Permitted (permits 4) move reopened (empty 4) ∧
      reopened.foldlM move (empty 4) = .ok t ∧ LastBefore 4 reopened 0 u ∧
      u.steps = #[⟨⟨4, true⟩, 0, .clause 0⟩, ⟨⟨3, false⟩, 0, .clause 1⟩] ∧
      t.backtrackTo 0 = .ok (next, [⟨1, false⟩, ⟨2, false⟩]) ∧ next.steps = u.steps ∧
      next.values = u.values ∧ next.values.numAssigned = 2 ∧ next.head = 2 := by
  have permitted : Permitted (permits 4) move reopened (empty 4) := by decide +kernel
  obtain ⟨t, ran, undoes, _, _⟩ := backtrackTo_undoes permitted
  have seen : (do
      let t ← reopened.foldlM move (empty 4)
      let (next, popped) ← t.backtrackTo 0
      return (t.level, next.steps, next.values.numAssigned, next.head, popped) : Except Fault _) =
      .ok (1, #[⟨⟨4, true⟩, 0, .clause 0⟩, ⟨⟨3, false⟩, 0, .clause 1⟩], 2, 2,
        [⟨1, false⟩, ⟨2, false⟩]) := by
    decide +kernel
  rw [ran, ok_bind] at seen
  obtain ⟨⟨next, popped⟩, back, same⟩ := bind_eq_ok.1 seen
  simp only [pure_eq_ok, Except.ok.injEq, Prod.mk.injEq] at same
  obtain ⟨level, steps, count, head, rfl⟩ := same
  obtain ⟨u, _, _, last, back', steps_eq, _, values_eq, _⟩ := undoes 0 (by omega)
  cases back.symm.trans back'
  exact ⟨t, u, next, permitted, ran, last, steps_eq.symm.trans steps, back, steps_eq, values_eq,
    count, head⟩

end ClauseLearning.Trail
