import ClauseLearning.Proofs.Database.Index
import ClauseLearning.Proofs.Propagation.Propagator

/-!
# Removing learnt clauses

When learnt clauses are removed, the clauses that stay move up. Everything that refers to clauses by
place has to follow: the reasons on the trail, the watch lists and the index.

Main statement: a reduction succeeds, and all that is known about formula, trail, propagator and
index holds of the reduced ones. Clauses that are reasons stay, so every reason finds its clause
again under the new place; with fewer clauses, nothing more is asked of a closed level.
-/

namespace ClauseLearning

namespace Trail

variable {t : Trail} {moved : Nat → Option Nat}

theorem getElem?_remap_eq_some {i : Nat} {s : Step} :
    (t.remap moved).steps[i]? = some s ↔
      ∃ r, t.steps[i]? = some r ∧ s = { r with reason := r.reason.remap moved } := by
  simp only [remap, Array.getElem?_map, Option.map_eq_some_iff]
  exact exists_congr fun r => and_congr_right fun _ => eq_comm

theorem holds_remap {l : Literal} : (t.remap moved).Holds l ↔ t.Holds l := by
  unfold Holds
  simp only [getElem?_remap_eq_some]
  constructor
  · rintro ⟨i, s, ⟨r, at_i, rfl⟩, same⟩
    exact ⟨i, r, at_i, same⟩
  · rintro ⟨i, s, at_i, same⟩
    exact ⟨i, _, ⟨s, at_i, rfl⟩, same⟩

theorem holdsBy_remap {k : Nat} {l : Literal} : (t.remap moved).HoldsBy k l ↔ t.HoldsBy k l := by
  unfold HoldsBy
  simp only [getElem?_remap_eq_some]
  constructor
  · rintro ⟨i, s, ⟨r, at_i, rfl⟩, same⟩
    exact ⟨i, r, at_i, same⟩
  · rintro ⟨i, s, at_i, same⟩
    exact ⟨i, _, ⟨s, at_i, rfl⟩, same⟩

theorem holdsBefore_remap {n : Nat} {l : Literal} :
    (t.remap moved).HoldsBefore n l ↔ t.HoldsBefore n l := by
  unfold HoldsBefore
  simp only [getElem?_remap_eq_some]
  constructor
  · rintro ⟨i, s, before, ⟨r, at_i, rfl⟩, same⟩
    exact ⟨i, r, before, at_i, same⟩
  · rintro ⟨i, s, before, at_i, same⟩
    exact ⟨i, _, before, ⟨s, at_i, rfl⟩, same⟩

@[simp] theorem size_remap : (t.remap moved).size = t.size := by
  simp [remap, size]

@[simp] theorem level_remap : (t.remap moved).level = t.level := rfl

@[simp] theorem head_remap : (t.remap moved).head = t.head := rfl

@[simp] theorem values_remap : (t.remap moved).values = t.values := rfl

theorem locks_iff {place : Nat} :
    t.locks place = true ↔ ∃ s ∈ t.steps, s.reason = .clause place := by
  rw [locks, Array.any_eq_true']
  simp only [beq_iff_eq]

theorem remap_decision {r : Reason} : r.remap moved = .decision ↔ r = .decision := by
  cases r <;> simp [Reason.remap]

theorem Recorded.remap {n : Nat} (recorded : t.Recorded n) : (t.remap moved).Recorded n where
  levelOf_size := recorded.levelOf_size
  positionOf_size := recorded.positionOf_size
  slots_size := recorded.slots_size
  count_eq := by
    rw [size_remap]
    exact recorded.count_eq
  -- A step differs from the one before only in the place that its reason names.
  positive at_i := by
    obtain ⟨r, old, rfl⟩ := getElem?_remap_eq_some.1 at_i
    exact (recorded.positive old :)
  declared at_i := by
    obtain ⟨r, old, rfl⟩ := getElem?_remap_eq_some.1 at_i
    exact (recorded.declared old :)
  slot at_i := by
    obtain ⟨r, old, rfl⟩ := getElem?_remap_eq_some.1 at_i
    exact (recorded.slot old :)
  levelOf at_i := by
    obtain ⟨r, old, rfl⟩ := getElem?_remap_eq_some.1 at_i
    exact (recorded.levelOf old :)
  positionOf at_i := by
    obtain ⟨r, old, rfl⟩ := getElem?_remap_eq_some.1 at_i
    exact (recorded.positionOf old :)
  assigned slot := holds_remap.2 (recorded.assigned slot)

theorem Valid.remap {n : Nat} (valid : t.Valid n) : (t.remap moved).Valid n where
  toRecorded := valid.toRecorded.remap
  head_le := by
    rw [size_remap]
    exact valid.head_le
  level_le at_i := by
    obtain ⟨r, old, rfl⟩ := getElem?_remap_eq_some.1 at_i
    exact (valid.level_le old :)
  start_le_iff start at_i := by
    obtain ⟨r, old, rfl⟩ := getElem?_remap_eq_some.1 at_i
    exact (valid.start_le_iff start old :)
  start found := by
    obtain ⟨s, at_p, decided, level⟩ := valid.start found
    exact ⟨_, getElem?_remap_eq_some.2 ⟨s, at_p, rfl⟩, remap_decision.2 decided, level⟩
  decision at_i decided := by
    obtain ⟨r, old, rfl⟩ := getElem?_remap_eq_some.1 at_i
    exact (valid.decision old (remap_decision.1 decided) :)

end Trail

namespace Formula

/-- One formula has the input clauses and some of the learnt clauses of another, the learnt ones
under new places. -/
structure Thins (f g : Formula) (moved : Nat → Option Nat) : Prop where
  numVars_eq : g.numVars = f.numVars
  inputCount_eq : g.inputCount = f.inputCount
  size_le : g.size ≤ f.size
  back : ∀ {place : Nat} {c : Clause}, g.clauses[place]? = some c →
    ∃ old, f.clauses[old]? = some c ∧ (place < f.inputCount ∧ old = place ∨
      f.inputCount ≤ place ∧ f.inputCount ≤ old ∧ moved old = some place)
  input : ∀ {place : Nat}, place < f.inputCount →
    g.clauses[place]? = f.clauses[place]? ∧ moved place = none
  forth : ∀ {old place : Nat}, moved old = some place →
    f.inputCount ≤ place ∧ g.clauses[place]? = f.clauses[old]?

namespace Thins

variable {f g : Formula} {moved : Nat → Option Nat} {t : Trail}

theorem literalsAt_back (thins : f.Thins g moved) {place : Nat} {ls : List Literal}
    (found : g.literalsAt place = some ls) :
    ∃ old, f.literalsAt old = some ls ∧ (place < f.inputCount ∧ old = place ∨
      f.inputCount ≤ place ∧ f.inputCount ≤ old ∧ moved old = some place) := by
  obtain ⟨c, at_place, rfl⟩ := literalsAt_eq_some.1 found
  obtain ⟨old, at_old, which⟩ := thins.back at_place
  exact ⟨old, literalsAt_of_clause at_old, which⟩

theorem models (thins : f.Thins g moved) {σ : Valuation} (models : f.Models σ) : g.Models σ := by
  intro place ls found
  obtain ⟨old, at_old, _⟩ := thins.literalsAt_back found
  exact models old ls at_old

theorem literalsAt_input (thins : f.Thins g moved) {place : Nat} (inside : place < f.inputCount) :
    g.literalsAt place = f.literalsAt place := by
  rw [literalsAt, literalsAt, (thins.input inside).1]

theorem satisfiedBy_iff (thins : f.Thins g moved) {σ : Valuation} :
    g.SatisfiedBy σ ↔ f.SatisfiedBy σ := by
  rw [Formula.satisfiedBy_iff, Formula.satisfiedBy_iff, thins.inputCount_eq]
  constructor
  · intro satisfied place ls inside found
    exact satisfied place ls inside ((thins.literalsAt_input inside).trans found)
  · intro satisfied place ls inside found
    exact satisfied place ls inside ((thins.literalsAt_input inside).symm.trans found)

theorem input_le (thins : f.Thins g moved) (input_le : f.inputCount ≤ f.size) :
    f.inputCount ≤ g.size := by
  -- The places of the input are taken in `f`, and so they are in `g`.
  refine le_of_forall_lt fun place inside => ?_
  have same := (thins.input inside).1
  rw [Array.getElem?_eq_getElem (Nat.lt_of_lt_of_le inside input_le)] at same
  exact (Array.getElem?_eq_some_iff.1 same).1

theorem present (thins : f.Thins g moved)
    (present : ∀ {place : Nat} {c : Clause}, f.clauses[place]? = some c → c.deleted = false)
    {place : Nat} {c : Clause} (found : g.clauses[place]? = some c) : c.deleted = false := by
  obtain ⟨old, at_old, _⟩ := thins.back found
  exact present at_old

theorem plain (thins : f.Thins g moved) (plain : f.Plain) : g.Plain where
  distinct found := by
    obtain ⟨old, at_old, _⟩ := thins.literalsAt_back found
    exact plain.distinct at_old
  present found := thins.present plain.present found

theorem wellFormed (thins : f.Thins g moved) (wellFormed : f.WellFormed) : g.WellFormed where
  positive found := by
    obtain ⟨old, at_old, _⟩ := thins.literalsAt_back found
    exact wellFormed.positive at_old
  declared found := by
    obtain ⟨old, at_old, _⟩ := thins.literalsAt_back found
    rw [thins.numVars_eq]
    exact wellFormed.declared at_old
  distinct := (thins.plain wellFormed.plain).distinct
  present := (thins.plain wellFormed.plain).present
  input_le := by
    rw [thins.inputCount_eq]
    exact thins.input_le wellFormed.input_le

theorem learntOnce (thins : f.Thins g moved) (once : f.LearntOnce) : g.LearntOnce := by
  intro p q ls ms learnt_p learnt_q at_p at_q perm
  rw [thins.inputCount_eq] at learnt_p learnt_q
  obtain ⟨i, at_i, ⟨input, _⟩ | ⟨_, learnt_i, from_i⟩⟩ := thins.literalsAt_back at_p
  · omega
  obtain ⟨j, at_j, ⟨input, _⟩ | ⟨_, learnt_j, from_j⟩⟩ := thins.literalsAt_back at_q
  · omega
  have same := once learnt_i learnt_j at_i at_j perm
  subst same
  exact Option.some.inj (from_i.symm.trans from_j)

/-- The new place of a reason has the clause that the old place had. -/
theorem literalsAt_remap (thins : f.Thins g moved) {place : Nat} {ls : List Literal}
    (found : f.literalsAt place = some ls)
    (stays : f.inputCount ≤ place → (moved place).isSome) :
    g.literalsAt ((moved place).getD place) = some ls := by
  by_cases input : place < f.inputCount
  · obtain ⟨same, unmoved⟩ := thins.input input
    rw [unmoved, Option.getD_none, literalsAt, same]
    exact found
  · obtain ⟨new, moved_to⟩ := Option.isSome_iff_exists.1 (stays (Nat.not_lt.1 input))
    rw [moved_to, Option.getD_some, literalsAt, (thins.forth moved_to).2]
    exact found

theorem closedAt (thins : f.Thins g moved) {k : Nat} (closed : t.ClosedAt f k) :
    (t.remap moved).ClosedAt g k := by
  intro place ls found l member others
  obtain ⟨old, at_old, _⟩ := thins.literalsAt_back found
  rw [Trail.holdsBy_remap]
  exact closed at_old l member fun q q_mem different =>
    Trail.holdsBy_remap.1 (others q q_mem different)

theorem coherent (thins : f.Thins g moved) (coherent : t.Coherent f)
    (stays : ∀ {i : Nat} {s : Step} {place : Nat}, t.steps[i]? = some s →
      s.reason = .clause place → f.inputCount ≤ place → (moved place).isSome) :
    (t.remap moved).Coherent g where
  wellFormed := thins.wellFormed coherent.wellFormed
  valid := by
    rw [thins.numVars_eq]
    exact coherent.valid.remap
  justified := by
    intro i s place at_i reason
    obtain ⟨r, old, rfl⟩ := Trail.getElem?_remap_eq_some.1 at_i
    -- A reason and the clause that it names move together.
    cases forced : r.reason with
    | decision => simp [forced, Reason.remap] at reason
    | clause before =>
      obtain ⟨ls, found, member, others⟩ := coherent.justified old forced
      simp only [forced, Reason.remap, Reason.clause.injEq] at reason
      refine ⟨ls, ?_, member, fun q q_mem different =>
        Trail.holdsBefore_remap.2 (others q q_mem different)⟩
      rw [← reason]
      exact thins.literalsAt_remap found (stays old forced)
  nonempty := by
    intro place found
    obtain ⟨old, at_old, _⟩ := thins.literalsAt_back found
    exact coherent.nonempty at_old
  units := by
    intro place l found
    obtain ⟨old, at_old, _⟩ := thins.literalsAt_back found
    exact Trail.holdsBy_remap.2 (coherent.units at_old)
  closed k lower := thins.closedAt (coherent.closed k lower)
  pending := by
    intro i s at_i waiting
    obtain ⟨r, old, rfl⟩ := Trail.getElem?_remap_eq_some.1 at_i
    exact (coherent.pending old waiting :)

theorem guards (thins : f.Thins g moved) {bound : Nat} (guards : t.Guards f bound) :
    (t.remap moved).Guards g bound := by
  intro place x y pair i s at_i before level refuted
  obtain ⟨r, old, rfl⟩ := Trail.getElem?_remap_eq_some.1 at_i
  have watched : x ∈ g.watchedAt place := pair.mem_iff.2 (List.mem_cons_self ..)
  obtain ⟨a, b, rest, found, _⟩ := exists_watchedAt_of_mem watched
  obtain ⟨origin, at_origin, _⟩ := thins.literalsAt_back found
  have pair_f : f.WatchesPair origin x y := by
    unfold WatchesPair
    rw [watchedAt_of_literalsAt at_origin, ← watchedAt_of_literalsAt found]
    exact pair
  have holds := guards pair_f old before level refuted
  exact Trail.holdsBy_remap.2 holds

end Thins

end Formula

namespace Reduction

variable {f : Formula} {gone : List Nat}

theorem mem_survivors {place : Nat} {c : Clause} :
    (place, c) ∈ survivors f gone ↔
      f.inputCount ≤ place ∧ f.clauses[place]? = some c ∧ place ∉ gone := by
  unfold survivors
  rw [List.mem_filter, Formula.mem_learntRegion]
  simp [and_assoc]

theorem nodup_survivors : ((survivors f gone).map Prod.fst).Nodup := by
  have included : (survivors f gone).Sublist f.learntRegion := List.filter_sublist
  exact (included.map Prod.fst).nodup f.nodup_places

theorem newPlace_eq_some {old place : Nat} :
    newPlace f gone old = some place ↔
      ∃ i c, (survivors f gone)[i]? = some (old, c) ∧ place = f.inputCount + i := by
  unfold newPlace
  simp only [Option.map_eq_some_iff, List.idxOf?_eq_some_iff]
  constructor
  · rintro ⟨i, ⟨inside, value, _⟩, rfl⟩
    rw [List.length_map] at inside
    rw [List.getElem_map] at value
    exact ⟨i, (survivors f gone)[i].2, by rw [List.getElem?_eq_getElem inside, ← value], rfl⟩
  · rintro ⟨i, c, found, rfl⟩
    obtain ⟨inside, value⟩ := List.getElem?_eq_some_iff.1 found
    refine ⟨i, ⟨by rwa [List.length_map], by rw [List.getElem_map, value], ?_⟩, rfl⟩
    -- The place occurs only once, so not before position `i`.
    intro j before same
    have different := List.pairwise_iff_getElem.1 (@nodup_survivors f gone) j i
      (by rw [List.length_map]; omega) (by rwa [List.length_map]) before
    rw [List.getElem_map] at same
    rw [List.getElem_map, List.getElem_map, same, value] at different
    exact different rfl

theorem newPlace_isSome {place : Nat} (learnt : f.inputCount ≤ place) (inside : place < f.size)
    (stays : place ∉ gone) : (newPlace f gone place).isSome := by
  have member : (place, f.clauses[place]) ∈ survivors f gone :=
    mem_survivors.2 ⟨learnt, Array.getElem?_eq_getElem inside, stays⟩
  obtain ⟨i, found⟩ := List.mem_iff_getElem?.1 member
  exact Option.isSome_iff_exists.2 ⟨_, newPlace_eq_some.2 ⟨i, _, found, rfl⟩⟩

theorem length_survivors_le : (survivors f gone).length ≤ f.size - f.inputCount := by
  have included : (survivors f gone).Sublist f.learntRegion := List.filter_sublist
  exact f.length_learntRegion ▸ included.length_le

theorem compact_eq_self (all : survivors f gone = f.learntRegion) : compact f gone = f := by
  have clauses : (f.clauses.take f.inputCount) ++ ((survivors f gone).map Prod.snd).toArray =
      f.clauses := by
    apply Array.toList_inj.1
    rw [all, f.clauses_learntRegion]
    simp
  rw [compact, clauses]

@[simp] theorem survivors_nil : survivors f [] = f.learntRegion := by
  simp [survivors]

@[simp] theorem compact_nil : compact f [] = f :=
  compact_eq_self survivors_nil

/-- Survivors keep their order. -/
theorem newPlace_lt_newPlace {a b first second : Nat} (at_first : newPlace f gone a = some first)
    (at_second : newPlace f gone b = some second) (before : a < b) : first < second := by
  obtain ⟨i, c, at_i, rfl⟩ := newPlace_eq_some.1 at_first
  obtain ⟨j, d, at_j, rfl⟩ := newPlace_eq_some.1 at_second
  have ascending : ((survivors f gone).map Prod.fst).Pairwise (· < ·) := by
    refine List.Pairwise.sublist (List.filter_sublist.map Prod.fst) ?_
    rw [f.places_learntRegion]
    exact List.pairwise_lt_range'
  obtain ⟨inside_i, value_i⟩ := List.getElem?_eq_some_iff.1 at_i
  obtain ⟨inside_j, value_j⟩ := List.getElem?_eq_some_iff.1 at_j
  -- Places ascend along the survivors, so a greater place is not found earlier.
  by_contra later
  rcases Nat.lt_or_eq_of_le (show j ≤ i by omega) with earlier | same
  · have swapped := List.pairwise_iff_getElem.1 ascending j i (by simpa) (by simpa) earlier
    simp only [List.getElem_map, value_i, value_j] at swapped
    omega
  · subst same
    cases value_i.symm.trans value_j
    omega

/-- If nothing is removed, nothing moves. -/
theorem newPlace_nil (place : Nat) : (newPlace f [] place).getD place = place := by
  cases moved : newPlace f [] place with
  | none => rfl
  | some new =>
    obtain ⟨i, c, at_i, rfl⟩ := newPlace_eq_some.1 moved
    rw [survivors_nil] at at_i
    have at_place := congrArg (Option.map Prod.fst) at_i
    rw [← List.getElem?_map, f.places_learntRegion] at at_place
    obtain ⟨_, same⟩ := List.getElem?_eq_some_iff.1 at_place
    simpa using same

theorem remap_newPlace_nil (t : Trail) : t.remap (newPlace f []) = t := by
  have reason_eq : ∀ r : Reason, r.remap (newPlace f []) = r := by
    intro r
    cases r with
    | decision => rfl
    | clause place => rw [Reason.remap, newPlace_nil]
  simp only [Trail.remap, reason_eq, Array.map_id']

theorem getElem?_compact (place : Nat) :
    (compact f gone).clauses[place]? =
      if place < f.inputCount then f.clauses[place]?
      else ((survivors f gone)[place - f.inputCount]?).map Prod.snd := by
  have bounded : (survivors f gone).length ≤ _ := length_survivors_le
  by_cases few : f.clauses.size < f.inputCount
  · -- Nothing is behind the input, so nothing can be removed.
    have none_stay : survivors f gone = [] := by
      apply List.length_eq_zero_iff.1
      unfold Formula.size at bounded
      omega
    have none_there : f.learntRegion = [] := by
      apply List.length_eq_zero_iff.1
      rw [f.length_learntRegion, Formula.size]
      omega
    rw [compact_eq_self (none_stay.trans none_there.symm), none_stay]
    split
    next => rfl
    next behind => exact Array.getElem?_eq_none (by omega)
  · have taken : (f.clauses.take f.inputCount).size = f.inputCount := by
      simp [Nat.not_lt.1 few]
    rw [compact, Array.getElem?_append, taken]
    by_cases input : place < f.inputCount
    · rw [if_pos input, if_pos input, Array.take_eq_extract, Array.getElem?_extract, Nat.sub_zero,
        Nat.zero_add, if_pos (by omega)]
    · rw [if_neg input, if_neg input, List.getElem?_toArray, List.getElem?_map]

theorem size_compact :
    (compact f gone).size = min f.inputCount f.size + (survivors f gone).length := by
  simp [compact, Formula.size]

/-- Places are removed once each, so as many clauses go as there are places. -/
theorem length_survivors (once : gone.Nodup) (inside : gone ⊆ f.learntRegion.map Prod.fst) :
    (survivors f gone).length + gone.length = f.size - f.inputCount := by
  have leaves : ((f.learntRegion.map Prod.fst).filter (gone.contains ·)).Perm gone := by
    refine (List.perm_ext_iff_of_nodup (f.nodup_places.filter _) once).2 fun place => ?_
    rw [List.mem_filter, List.contains_iff_mem]
    exact ⟨And.right, fun member => ⟨inside member, member⟩⟩
  have stay : (survivors f gone).length =
      ((f.learntRegion.map Prod.fst).filter fun place => !gone.contains place).length := by
    rw [List.filter_map, List.length_map]
    rfl
  have total := List.length_eq_length_filter_add
    (l := f.learntRegion.map Prod.fst) (gone.contains ·)
  rw [List.length_map, f.length_learntRegion, leaves.length_eq] at total
  omega

theorem thins_compact (f : Formula) (gone : List Nat) :
    f.Thins (compact f gone) (newPlace f gone) where
  numVars_eq := rfl
  inputCount_eq := rfl
  size_le := by
    have le : (survivors f gone).length ≤ _ := length_survivors_le
    rw [size_compact]
    omega
  back := by
    intro place c found
    rw [getElem?_compact] at found
    by_cases input : place < f.inputCount
    · rw [if_pos input] at found
      exact ⟨place, found, .inl ⟨input, rfl⟩⟩
    · rw [if_neg input, Option.map_eq_some_iff] at found
      -- Behind the input, the position of a survivor tells its new place.
      obtain ⟨⟨old, d⟩, at_i, rfl⟩ := found
      obtain ⟨learnt, at_old, _⟩ := mem_survivors.1 (List.mem_of_getElem? at_i)
      exact ⟨old, at_old, .inr ⟨Nat.not_lt.1 input, learnt,
        newPlace_eq_some.2 ⟨_, _, at_i, by omega⟩⟩⟩
  input := by
    intro place inside
    refine ⟨by rw [getElem?_compact, if_pos inside], ?_⟩
    -- Input clauses are no survivors, so they do not move.
    cases moved : newPlace f gone place with
    | none => rfl
    | some new =>
      obtain ⟨i, c, at_i, _⟩ := newPlace_eq_some.1 moved
      have learnt := (mem_survivors.1 (List.mem_of_getElem? at_i)).1
      omega
  forth := by
    intro old place moved
    obtain ⟨i, c, at_i, rfl⟩ := newPlace_eq_some.1 moved
    obtain ⟨_, at_old, _⟩ := mem_survivors.1 (List.mem_of_getElem? at_i)
    refine ⟨Nat.le_add_right _ _, ?_⟩
    rw [getElem?_compact, if_neg (Nat.not_lt.2 (Nat.le_add_right _ _)),
      Nat.add_sub_cancel_left, at_i, at_old]
    rfl

theorem places_candidates (f : Formula) (t : Trail) :
    ((candidates f t).map Candidate.place).Sublist (f.learntRegion.map Prod.fst) := by
  rw [candidates, List.map_map]
  exact (List.filter_sublist.trans List.filter_sublist).map Prod.fst

/-- What is selected are places of learnt clauses, each once. -/
theorem selected_inside (f : Formula) (t : Trail) :
    (selected f t).Nodup ∧ selected f t ⊆ f.learntRegion.map Prod.fst := by
  have chosen : (selected f t).Sublist
      ((sortBy Candidate.before (candidates f t)).map Candidate.place) :=
    (List.take_sublist _ _).map _
  have sorted := (sortBy_perm Candidate.before (candidates f t)).map Candidate.place
  have places := places_candidates f t
  exact ⟨chosen.nodup (sorted.nodup_iff.2 (places.nodup f.nodup_places)),
    fun place member => places.subset (sorted.subset (chosen.subset member))⟩

theorem length_selected (f : Formula) (t : Trail) :
    (selected f t).length = min ((unlocked f t).length / 2) (candidates f t).length := by
  simp only [selected, List.length_map, List.length_take, length_sortBy]
  omega

/-- Clauses that are reasons are not selected. -/
theorem not_mem_selected {t : Trail} {i place : Nat} {s : Step} (at_i : t.steps[i]? = some s)
    (reason : s.reason = .clause place) : place ∉ selected f t := by
  intro member
  obtain ⟨candidate, taken, rfl⟩ := List.mem_map.1 member
  have sorted := mem_sortBy.1 (List.mem_of_mem_take taken)
  obtain ⟨entry, filtered, rfl⟩ := List.mem_map.1 sorted
  obtain ⟨_, free⟩ := List.mem_filter.1 (List.mem_filter.1 filtered).1
  have locked : t.locks entry.1 = true :=
    Trail.locks_iff.2 ⟨s, Array.mem_of_getElem? at_i, reason⟩
  simp [locked] at free

end Reduction

/-! ### Renewing the watch lists -/

theorem watchCount_learntRegion (f : Formula) (place : Nat) (l : Literal) :
    Watches.watchCount f.learntRegion place l =
      if f.inputCount ≤ place then (f.watchedAt place).count l else 0 := by
  unfold Formula.learntRegion
  rw [Watches.watchCount_mapIdx]
  by_cases learnt : f.inputCount ≤ place
  · rw [if_pos learnt, if_pos learnt, List.getElem?_drop, Array.getElem?_toList,
      Nat.add_sub_cancel' learnt]
    unfold Formula.watchedAt Formula.literalsAt
    rw [Option.map_map]
    rfl
  · rw [if_neg learnt, if_neg learnt]

/-- There is a list for every literal that a learnt clause watches. -/
def Watches.Accommodates (w : Watches) (f : Formula) : Prop :=
  ∀ entry ∈ f.learntRegion, ∀ l ∈ watchedOf entry.2.literals, l.index < w.lists.size

theorem Watches.Registers.accommodates {w : Watches} {f : Formula} (registers : w.Registers f) :
    w.Accommodates f := by
  rintro ⟨place, c⟩ member l watched
  obtain ⟨_, found⟩ := Formula.mem_learntRegion.1 member
  rw [← Formula.watchedAt_of_literalsAt (Formula.literalsAt_of_clause found)] at watched
  exact registers.index_lt_of_watched watched

namespace Formula.Thins

variable {f g : Formula} {moved : Nat → Option Nat}

/-- The learnt clauses that are left can be listed anew. -/
theorem addAll_ok (thins : f.Thins g moved) {w : Watches} (accommodates : w.Accommodates f) :
    ∃ next, (w.dropFrom f.inputCount).addAll g.learntRegion = .ok next ∧
      next.lists.size = w.lists.size ∧ ∀ l place, (next.listOf l).count place =
        if place < f.inputCount then (w.listOf l).count place
        else (g.watchedAt place).count l := by
  have size_eq : (w.dropFrom f.inputCount).lists.size = w.lists.size := by
    simp [Watches.dropFrom]
  have room : ∀ entry ∈ g.learntRegion, ∀ l ∈ watchedOf entry.2.literals,
      l.index < (w.dropFrom f.inputCount).lists.size := by
    rintro ⟨place, c⟩ member
    obtain ⟨learnt, found⟩ := mem_learntRegion.1 member
    rw [thins.inputCount_eq] at learnt
    rw [size_eq]
    obtain ⟨old, at_old, ⟨input, _⟩ | ⟨_, learnt_old, _⟩⟩ := thins.back found
    · omega
    · exact accommodates (old, c) (mem_learntRegion.2 ⟨learnt_old, at_old⟩)
  obtain ⟨next, ran, next_size, count⟩ := Watches.addAll_ok g.learntRegion _ room
  refine ⟨next, ran, next_size.trans size_eq, fun l place => ?_⟩
  rw [count, Watches.count_dropFrom, watchCount_learntRegion, thins.inputCount_eq]
  by_cases input : place < f.inputCount
  · rw [if_pos input, if_pos input, if_neg (Nat.not_le.2 input), Nat.add_zero]
  · rw [if_neg input, if_neg input, if_pos (Nat.not_lt.1 input), Nat.zero_add]

/-- Input clauses stay on their lists, and learnt ones are entered again under their new places. -/
theorem registers (thins : f.Thins g moved) {w : Watches} (registers : w.Registers f) :
    ∃ next, (w.dropFrom f.inputCount).addAll g.learntRegion = .ok next ∧ next.Registers g := by
  obtain ⟨next, ran, size_eq, count⟩ := thins.addAll_ok registers.accommodates
  refine ⟨next, ran, ?_, fun l place => ?_⟩
  · rw [size_eq, registers.size_eq, thins.numVars_eq]
  · rw [count]
    split
    next input => rw [registers.count_eq, watchedAt_congr (thins.literalsAt_input input)]
    next => rfl

theorem ready (thins : f.Thins g moved) {t : Trail} {p : Propagator} (ready : p.Ready f t) :
    ∃ q, (p.dropFrom f.inputCount).addAll g.learntRegion = .ok q ∧
      q.Ready g (t.remap moved) := by
  cases p with
  | watched w n =>
    obtain ⟨next, ran, registers⟩ := thins.registers ready.1
    exact ⟨.watched next n, by simp only [Propagator.dropFrom, Propagator.addAll, ran, map_ok],
      registers, thins.guards ready.2⟩
  | scan n =>
    refine ⟨.scan n, rfl, fun done => thins.closedAt (ready ?_)⟩
    rwa [Trail.head_remap, Trail.size_remap] at done

end Formula.Thins

/-! ### Reductions -/

namespace Database

/-- What is known about formula, trail, propagator and index together. -/
structure Keeps (d : Database) (f : Formula) (t : Trail) (p : Propagator) : Prop where
  coherent : t.Coherent f
  ready : p.Ready f t
  indexes : d.Indexes f

/-- What a reduction does to formula and trail. -/
structure Reduces (d : Database) (f : Formula) (t : Trail) (next : Database) (g : Formula)
    (u : Trail) : Prop where
  numVars_eq : g.numVars = f.numVars
  inputCount_eq : g.inputCount = f.inputCount
  size_le : g.size ≤ f.size
  input : ∀ {place : Nat}, place < f.inputCount → g.literalsAt place = f.literalsAt place
  models : ∀ {σ : Valuation}, f.Models σ → g.Models σ
  satisfiedBy_iff : ∀ {σ : Valuation}, g.SatisfiedBy σ ↔ f.SatisfiedBy σ
  values_eq : u.values = t.values
  head_eq : u.head = t.head
  size_eq : u.size = t.size
  level_eq : u.level = t.level
  limit : ∀ {k : Nat}, d.limit? = some k → ∃ m, next.limit? = some m ∧ k < m
  balance : g.size + next.removed = f.size + d.removed

/-- The places of the clauses that a reduction removes. -/
def doomed (d : Database) (f : Formula) (t : Trail) : List Nat :=
  match d.reduction with
  | none => []
  | some _ => Reduction.selected f t

theorem doomed_inside (d : Database) (f : Formula) (t : Trail) :
    (d.doomed f t).Nodup ∧ d.doomed f t ⊆ f.learntRegion.map Prod.fst := by
  unfold doomed
  split
  next => exact ⟨List.nodup_nil, List.nil_subset _⟩
  next => exact Reduction.selected_inside f t

theorem size_compact_doomed (d : Database) (f : Formula) (t : Trail) :
    (Reduction.compact f (d.doomed f t)).size + (d.doomed f t).length = f.size := by
  obtain ⟨once, inside⟩ := d.doomed_inside f t
  have count := Reduction.length_survivors once inside
  rw [Reduction.size_compact]
  omega

/-- Clauses that are reasons are not removed. -/
theorem not_mem_doomed {d : Database} {f : Formula} {t : Trail} {i place : Nat} {s : Step}
    (at_i : t.steps[i]? = some s) (reason : s.reason = .clause place) :
    place ∉ d.doomed f t := by
  unfold doomed
  split
  next => exact List.not_mem_nil
  next => exact Reduction.not_mem_selected at_i reason

/-- What a reduction returns. Propagator and index are renewed only if clauses go, and the limit
grows in any case. -/
theorem reduce_eq {d : Database} {f : Formula} {t : Trail} {p q : Propagator} {gone : List Nat}
    (chosen : d.doomed f t = gone)
    (renewed : (p.dropFrom f.inputCount).addAll (Reduction.compact f gone).learntRegion = .ok q) :
    d.reduce f t p =
      .ok (⟨if gone = [] then d.index else indexOf (Reduction.compact f gone),
          d.reduction.map fun r =>
            { r with limit := Reduction.nextLimit r.limit, removed := r.removed + gone.length }⟩,
        Reduction.compact f gone, t.remap (Reduction.newPlace f gone),
        if gone = [] then p else q, gone.length) := by
  subst chosen
  unfold reduce doomed at *
  -- If nothing goes, compaction and renumbering change nothing either.
  cases reduction : d.reduction with
  | none =>
    obtain ⟨index, _⟩ := d
    cases reduction
    simp [Reduction.remap_newPlace_nil]
  | some r =>
    simp only [reduction] at renewed
    by_cases nothing : Reduction.selected f t = []
    · simp [nothing, Reduction.remap_newPlace_nil]
    · simp [nothing, remove, renewed]

/-- After a reduction the index has the learnt clauses that are left. -/
theorem Indexes.reduced {d : Database} {f : Formula} (indexes : d.Indexes f)
    (present : ∀ {place : Nat} {c : Clause}, f.clauses[place]? = some c → c.deleted = false)
    (gone : List Nat) (reduction : Option Reduction) :
    Indexes ⟨if gone = [] then d.index else indexOf (Reduction.compact f gone), reduction⟩
      (Reduction.compact f gone) := by
  by_cases nothing : gone = []
  · subst nothing
    simpa [Indexes] using indexes
  · have thins := Reduction.thins_compact f gone
    exact indexes_indexOf (if_neg nothing) (thins.present present)
      (thins.learntOnce indexes.learntOnce)

theorem reduce_ok {d : Database} {f : Formula} {t : Trail} {p : Propagator}
    (keeps : d.Keeps f t p) :
    ∃ next g u q removed, d.reduce f t p = .ok (next, g, u, q, removed) ∧ next.Keeps g u q ∧
      Reduces d f t next g u := by
  obtain ⟨coherent, ready, indexes⟩ := keeps
  have wellFormed := coherent.wellFormed
  have thins := Reduction.thins_compact f (d.doomed f t)
  obtain ⟨q, renewed, ready_q⟩ := thins.ready ready
  -- Reasons are locked, so each of them survives under a new place.
  have coherent_u := thins.coherent coherent fun {i s place} at_i reason learnt => by
    obtain ⟨ls, found, _⟩ := coherent.justified at_i reason
    exact Reduction.newPlace_isSome learnt (Formula.lt_size_of_literalsAt found)
      (not_mem_doomed at_i reason)
  refine ⟨_, _, _, _, _, reduce_eq rfl renewed,
    ⟨coherent_u, ?_, indexes.reduced wellFormed.present _ _⟩, rfl, rfl, thins.size_le,
    thins.literalsAt_input, thins.models, thins.satisfiedBy_iff, rfl, rfl, Trail.size_remap, rfl,
    ?_, ?_⟩
  · split
    next nothing =>
      rw [nothing, Reduction.compact_nil, Reduction.remap_newPlace_nil]
      exact ready
    next => exact ready_q
  · intro k before
    obtain ⟨r, reduction, rfl⟩ := Option.map_eq_some_iff.1 before
    refine ⟨Reduction.nextLimit r.limit, by simp [limit?, reduction], ?_⟩
    unfold Reduction.nextLimit
    omega
  · have count := d.size_compact_doomed f t
    cases reduction : d.reduction with
    | none =>
      have nothing : d.doomed f t = [] := by simp [doomed, reduction]
      rw [nothing, List.length_nil] at count
      simp only [removed, reduction, Option.map_none, nothing]
      omega
    | some r =>
      simp only [removed, reduction, Option.map_some, Option.getD_some]
      omega

end Database

end ClauseLearning
