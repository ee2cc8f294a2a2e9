import ClauseLearning.Proofs.Database.Compaction
import ClauseLearning.Proofs.Rank
import ClauseLearning.Word
import Mathlib.Data.Finset.Card
import Mathlib.Order.Interval.Finset.Nat

/-!
# Which clauses a reduction removes

A reduction counts the learnt clauses that are the reason of no step and removes up to half as many,
but only clauses with literals of more than two levels. Among these, clauses of more levels go
first, then those of less activity, then those at smaller places.

Main statement: these rules leave no choice, and the clauses that they ask for are the ones that a
reduction removes. The order is total, so the first clauses of any number form one set only, in
whatever way they are found. The limit is raised by a tenth and one, up to the greatest limit for
which the sum is a 64-bit word.
-/

namespace ClauseLearning

namespace Formula

/-- All clauses, each with its place. -/
def entries (f : Formula) : List (Nat × Clause) :=
  f.clauses.toList.mapIdx fun i c => (i, c)

/-- The formula without the clauses at the given places. -/
def without (f : Formula) (gone : Finset Nat) : Formula :=
  { f with clauses := ((f.entries.filter fun entry => entry.1 ∉ gone).map Prod.snd).toArray }

theorem entries_eq (f : Formula) :
    f.entries = (f.inputClauses.mapIdx fun i c => (i, c)) ++ f.learntRegion := by
  rw [entries]
  conv_lhs => rw [← List.take_append_drop f.inputCount f.clauses.toList]
  rw [List.mapIdx_append, inputClauses, learntRegion]
  congr 1
  apply List.mapIdx_eq_mapIdx_iff.2
  -- If a clause is behind the input, the input is complete and counts in full.
  intro i inside
  rw [List.length_drop] at inside
  rw [List.length_take]
  simp only [Prod.mk.injEq, and_true]
  omega

end Formula

namespace Candidate

theorem before_iff {a b : Candidate} :
    before a b = true ↔ b.lbd < a.lbd ∨ a.lbd = b.lbd ∧
      (a.rank.toNat < b.rank.toNat ∨ a.rank.toNat = b.rank.toNat ∧ a.place ≤ b.place) := by
  simp [before, UInt64.lt_iff_toNat_lt, ← UInt64.toNat_inj]

theorem before_trans (a b c : Candidate) (first : before a b = true) (second : before b c = true) :
    before a c = true := by
  rw [before_iff] at *
  omega

theorem before_total (a b : Candidate) : (before a b || before b a) = true := by
  rw [Bool.or_eq_true, before_iff, before_iff]
  omega

end Candidate

namespace Reduction

variable {f : Formula} {t : Trail}

/-- The places of the learnt clauses that are the reason of no step. -/
def free (f : Formula) (t : Trail) : Finset Nat :=
  (Finset.Ico f.inputCount f.size).filter fun place => ∀ s ∈ t.steps, s.reason ≠ .clause place

/-- The places of those of them with literals of more than two levels. -/
def expendable (f : Formula) (t : Trail) : Finset Nat :=
  (free f t).filter fun place => ∃ c ∈ f.clauses[place]?, 2 < c.lbd

/-- The clause at `a` is removed before the one at `b`: it has more levels, or as many and less
activity, or as much and a smaller place. -/
def Precedes (f : Formula) (a b : Nat) : Prop :=
  ∃ c ∈ f.clauses[a]?, ∃ d ∈ f.clauses[b]?, d.lbd < c.lbd ∨ c.lbd = d.lbd ∧
    (Rank.BelowByBits c.activity d.activity ∨ c.activity = d.activity ∧ a < b)

/-- Half as many places as there are free ones, or all expendable ones if they are fewer. All of
them are expendable, and none is preceded by an expendable one that is left over. -/
structure Worst (f : Formula) (t : Trail) (gone : Finset Nat) : Prop where
  subset : gone ⊆ expendable f t
  card_eq : gone.card = min ((free f t).card / 2) (expendable f t).card
  first : ∀ a ∈ gone, ∀ b ∈ expendable f t, b ∉ gone → ¬Precedes f b a

instance (f : Formula) (a b : Nat) : Decidable (Precedes f a b) :=
  inferInstanceAs (Decidable (∃ c ∈ f.clauses[a]?, ∃ d ∈ f.clauses[b]?,
    d.lbd < c.lbd ∨ c.lbd = d.lbd ∧
      (Rank.BelowByBits c.activity d.activity ∨ c.activity = d.activity ∧ a < b)))

instance (f : Formula) (t : Trail) (gone : Finset Nat) : Decidable (Worst f t gone) :=
  decidable_of_iff (gone ⊆ expendable f t ∧
    gone.card = min ((free f t).card / 2) (expendable f t).card ∧
    ∀ a ∈ gone, ∀ b ∈ expendable f t, b ∉ gone → ¬Precedes f b a)
    ⟨fun ⟨subset, card_eq, first⟩ => ⟨subset, card_eq, first⟩,
      fun worst => ⟨worst.subset, worst.card_eq, worst.first⟩⟩

/-! ### The order of removal -/

theorem precedes_iff {a b : Nat} {c d : Clause} (at_a : f.clauses[a]? = some c)
    (at_b : f.clauses[b]? = some d) :
    Precedes f a b ↔ d.lbd < c.lbd ∨ c.lbd = d.lbd ∧
      ((Rank.ofBits c.activity).toNat < (Rank.ofBits d.activity).toNat ∨
        (Rank.ofBits c.activity).toNat = (Rank.ofBits d.activity).toNat ∧ a < b) := by
  simp [Precedes, at_a, at_b, ← Rank.ofBits_lt_iff, ← Rank.ofBits_inj, UInt64.lt_iff_toNat_lt,
    ← UInt64.toNat_inj]

theorem precedes_total {a b : Nat} (inside_a : a < f.size) (inside_b : b < f.size)
    (different : a ≠ b) : Precedes f a b ∨ Precedes f b a := by
  have at_a := Array.getElem?_eq_getElem inside_a
  have at_b := Array.getElem?_eq_getElem inside_b
  rw [precedes_iff at_a at_b, precedes_iff at_b at_a]
  omega

theorem bounds_of_free {place : Nat} (member : place ∈ free f t) :
    f.inputCount ≤ place ∧ place < f.size :=
  Finset.mem_Ico.1 (Finset.mem_filter.1 member).1

theorem free_of_expendable {place : Nat} (member : place ∈ expendable f t) : place ∈ free f t :=
  (Finset.mem_filter.1 member).1

/-- The rules leave no choice. -/
theorem Worst.unique {gone other : Finset Nat} (worst : Worst f t gone) (also : Worst f t other) :
    other = gone := by
  have card_eq : other.card = gone.card := also.card_eq.trans worst.card_eq.symm
  by_contra different
  -- Of two different sets of one size, each has a member that the other lacks.
  obtain ⟨b, b_mem, b_not⟩ := Finset.not_subset.1 fun included =>
    different (Finset.eq_of_subset_of_card_le included card_eq.ge)
  obtain ⟨a, a_mem, a_not⟩ := Finset.not_subset.1 fun included =>
    different (Finset.eq_of_subset_of_card_le included card_eq.le).symm
  have a_in := worst.subset a_mem
  have b_in := also.subset b_mem
  have apart : a ≠ b := fun same => a_not (same ▸ b_mem)
  rcases precedes_total (bounds_of_free (free_of_expendable a_in)).2
    (bounds_of_free (free_of_expendable b_in)).2 apart with before | before
  · exact also.first b b_mem a a_in a_not before
  · exact worst.first a a_mem b b_in b_not before

/-! ### What is selected -/

theorem mem_unlocked {place : Nat} {c : Clause} :
    (place, c) ∈ unlocked f t ↔ place ∈ free f t ∧ f.clauses[place]? = some c := by
  have free_iff : (!t.locks place) = true ↔ ∀ s ∈ t.steps, s.reason ≠ .clause place := by
    rw [Bool.not_eq_true', Bool.eq_false_iff, ne_eq, Trail.locks_iff]
    simp
  rw [unlocked, List.mem_filter, Formula.mem_learntRegion, free, Finset.mem_filter, Finset.mem_Ico,
    free_iff]
  constructor
  · rintro ⟨⟨learnt, found⟩, unlocked⟩
    exact ⟨⟨⟨learnt, (Array.getElem?_eq_some_iff.1 found).1⟩, unlocked⟩, found⟩
  · rintro ⟨⟨⟨learnt, _⟩, unlocked⟩, found⟩
    exact ⟨⟨learnt, found⟩, unlocked⟩

theorem mem_candidates {x : Candidate} :
    x ∈ candidates f t ↔ x.place ∈ expendable f t ∧
      ∃ c, f.clauses[x.place]? = some c ∧ x.lbd = c.lbd ∧ x.rank = Rank.ofBits c.activity := by
  simp only [candidates, List.mem_map, List.mem_filter, Prod.exists, mem_unlocked,
    decide_eq_true_eq, expendable, Finset.mem_filter]
  constructor
  · rintro ⟨place, c, ⟨⟨free, found⟩, levels⟩, rfl⟩
    exact ⟨⟨free, c, found, levels⟩, c, found, rfl, rfl⟩
  · rintro ⟨⟨free, d, at_place, levels⟩, c, found, lbd, rank⟩
    cases found.symm.trans at_place
    exact ⟨x.place, d, ⟨⟨free, at_place⟩, levels⟩, by rw [← lbd, ← rank]⟩

theorem card_free (f : Formula) (t : Trail) : (free f t).card = (unlocked f t).length := by
  have nodup : ((unlocked f t).map Prod.fst).Nodup :=
    (List.filter_sublist.map Prod.fst).nodup f.nodup_places
  have places : ((unlocked f t).map Prod.fst).toFinset = free f t := by
    ext place
    simp only [List.mem_toFinset, List.mem_map, Prod.exists, exists_and_right, exists_eq_right,
      mem_unlocked]
    refine ⟨fun ⟨_, member, _⟩ => member, fun member => ?_⟩
    exact ⟨_, member, Array.getElem?_eq_getElem (bounds_of_free member).2⟩
  rw [← places, List.toFinset_card_of_nodup nodup, List.length_map]

theorem card_expendable (f : Formula) (t : Trail) :
    (expendable f t).card = (candidates f t).length := by
  have nodup : ((candidates f t).map Candidate.place).Nodup :=
    (places_candidates f t).nodup f.nodup_places
  have places : ((candidates f t).map Candidate.place).toFinset = expendable f t := by
    ext place
    simp only [List.mem_toFinset, List.mem_map, mem_candidates]
    constructor
    · rintro ⟨x, ⟨member, _⟩, rfl⟩
      exact member
    · intro member
      obtain ⟨_, c, found, _⟩ := Finset.mem_filter.1 member
      exact ⟨⟨place, c.lbd, Rank.ofBits c.activity⟩, ⟨member, c, found, rfl, rfl⟩, rfl⟩
  rw [← places, List.toFinset_card_of_nodup nodup, List.length_map]

/-- What is selected comes before what is left over. -/
theorem before_of_selected {place : Nat} (member : place ∈ selected f t) :
    ∃ x ∈ candidates f t, x.place = place ∧
      ∀ y ∈ candidates f t, y.place ∉ selected f t → x.before y = true := by
  obtain ⟨x, taken, rfl⟩ := List.mem_map.1 member
  have sorted := pairwise_sortBy Candidate.before_trans Candidate.before_total (candidates f t)
  have perm := sortBy_perm Candidate.before (candidates f t)
  refine ⟨x, perm.mem_iff.1 (List.mem_of_mem_take taken), rfl, fun y y_mem left_over => ?_⟩
  -- The sorted list is cut in two, and what is not in front is behind.
  rw [← List.take_append_drop (min ((unlocked f t).length / 2) (candidates f t).length)
    (sortBy Candidate.before (candidates f t))] at perm sorted
  rcases List.mem_append.1 (perm.mem_iff.2 y_mem) with front | behind
  · exact absurd (List.mem_map.2 ⟨y, front, rfl⟩) left_over
  · exact (List.pairwise_append.1 sorted).2.2 x taken y behind

/-- What is selected is the worst. -/
theorem worst_selected (f : Formula) (t : Trail) : Worst f t (selected f t).toFinset where
  subset place member := by
    obtain ⟨x, candidate, rfl, _⟩ := before_of_selected (List.mem_toFinset.1 member)
    exact (mem_candidates.1 candidate).1
  card_eq := by
    rw [List.toFinset_card_of_nodup (selected_inside f t).1, length_selected, card_free,
      card_expendable]
  first a a_mem b b_in b_not := by
    obtain ⟨x, x_mem, rfl, earlier⟩ := before_of_selected (List.mem_toFinset.1 a_mem)
    obtain ⟨_, c, at_a, lbd, rank⟩ := mem_candidates.1 x_mem
    obtain ⟨_, d, at_b, _⟩ := Finset.mem_filter.1 b_in
    have before := earlier ⟨b, d.lbd, Rank.ofBits d.activity⟩
      (mem_candidates.2 ⟨b_in, d, at_b, rfl, rfl⟩) fun member => b_not (List.mem_toFinset.2 member)
    -- The comparison allows equal places, but these are different.
    have different : b ≠ x.place := fun same => b_not (same ▸ a_mem)
    simp only [Candidate.before_iff, lbd, rank] at before
    rw [precedes_iff at_b at_a]
    omega

/-- Up to the greatest limit, and not beyond it, the next limit is a word. -/
theorem nextLimit_le_greatest_iff {limit : Nat} :
    nextLimit limit ≤ Word.greatest ↔ limit ≤ greatestLimit := by
  unfold nextLimit Word.greatest greatestLimit
  omega

/-- Moving the survivors up behind the input leaves the formula without what is gone. -/
theorem compact_eq_without {gone : List Nat} (learnt : ∀ place ∈ gone, f.inputCount ≤ place) :
    compact f gone = f.without gone.toFinset := by
  -- In front nothing goes, and behind the two definitions ask the same question.
  have front : (f.inputClauses.mapIdx fun i c => (i, c)).filter
      (fun entry => decide (entry.1 ∉ gone.toFinset)) =
        f.inputClauses.mapIdx fun i c => (i, c) := by
    rw [List.filter_eq_self]
    intro entry member
    obtain ⟨i, inside, rfl⟩ := List.mem_mapIdx.1 member
    rw [Formula.inputClauses, List.length_take] at inside
    have stays : i ∉ gone := by
      intro removed
      have behind := learnt i removed
      omega
    simpa using stays
  have behind : f.learntRegion.filter (fun entry => decide (entry.1 ∉ gone.toFinset)) =
      survivors f gone := by
    unfold survivors
    congr 1
    funext entry
    simp
  have input : (f.inputClauses.mapIdx fun i c => (i, c)).map Prod.snd = f.inputClauses :=
    List.ext_getElem (by simp) (by simp)
  rw [compact, Formula.without, f.entries_eq, List.filter_append, front, behind, List.map_append,
    input]
  congr 1
  apply Array.toList_inj.1
  simp [Formula.inputClauses]

end Reduction

namespace Database

/-- A reduction removes the worst clauses and nothing else, and returns their number. The limit
grows even if there are none, and is a word again. -/
theorem reduce_removes_worst {d : Database} {r : Reduction} (reduction : d.reduction = some r)
    (fits : r.limit ≤ Reduction.greatestLimit) {f : Formula} {t : Trail} {p : Propagator}
    (accommodates : ∀ w ∈ p.watches?, w.Accommodates f) :
    ∃ next u q gone, d.reduce f t p = .ok (next, f.without gone, u, q, gone.card) ∧
      Reduction.Worst f t gone ∧ (∀ other, Reduction.Worst f t other → other = gone) ∧
      next.reduction = some
        { r with limit := r.limit + r.limit / 10 + 1, removed := r.removed + gone.card } ∧
      r.limit + r.limit / 10 + 1 ≤ Word.greatest := by
  have thins := Reduction.thins_compact f (Reduction.selected f t)
  have chosen : d.doomed f t = Reduction.selected f t := by simp [doomed, reduction]
  have once := (Reduction.selected_inside f t).1
  have worst := Reduction.worst_selected f t
  obtain ⟨q, renewed⟩ : ∃ q, (p.dropFrom f.inputCount).addAll
      (Reduction.compact f (Reduction.selected f t)).learntRegion = .ok q := by
    cases p with
    | watched w n =>
      obtain ⟨next, ran, _⟩ := thins.addAll_ok (accommodates w rfl)
      exact ⟨.watched next n, by simp only [Propagator.dropFrom, Propagator.addAll, ran, map_ok]⟩
    | scan n => exact ⟨.scan n, rfl⟩
  have learnt : ∀ place ∈ Reduction.selected f t, f.inputCount ≤ place := fun place member =>
    (Reduction.bounds_of_free (Reduction.free_of_expendable
      (worst.subset (List.mem_toFinset.2 member)))).1
  have ran := reduce_eq chosen renewed
  rw [Reduction.compact_eq_without learnt, ← List.toFinset_card_of_nodup once] at ran
  have word := Reduction.nextLimit_le_greatest_iff.2 fits
  rw [Reduction.nextLimit, ← Nat.add_assoc] at word
  refine ⟨_, _, _, _, ran, worst, fun other => worst.unique, ?_, word⟩
  rw [reduction, Option.map_some, Reduction.nextLimit, Nat.add_assoc]

/-- Six clauses have been learnt, with their levels and activities. -/
def crowded : Formula :=
  ⟨#[⟨[⟨1, true⟩, ⟨2, true⟩, ⟨3, true⟩], 0, 0.0, false, false⟩,
    ⟨[⟨1, false⟩, ⟨2, true⟩, ⟨3, true⟩], 3, 0.0, true, false⟩,
    ⟨[⟨1, true⟩, ⟨2, false⟩, ⟨3, true⟩], 2, 0.0, true, false⟩,
    ⟨[⟨1, true⟩, ⟨2, true⟩, ⟨3, false⟩], 3, 1.0, true, false⟩,
    ⟨[⟨1, false⟩, ⟨2, false⟩, ⟨3, true⟩], 3, 0.5, true, false⟩,
    ⟨[⟨1, false⟩, ⟨2, true⟩, ⟨3, false⟩], 4, 2.0, true, false⟩,
    ⟨[⟨1, true⟩, ⟨2, false⟩, ⟨3, false⟩], 3, 0.5, true, false⟩], 3, 1⟩

/-- The first learnt clause is the reason of the last step. -/
def crowdedTrail : Trail where
  steps := #[⟨⟨2, false⟩, 1, .decision⟩, ⟨⟨3, false⟩, 2, .decision⟩, ⟨⟨1, false⟩, 2, .clause 1⟩]
  head := 2
  levelOf := #[0, 2, 1, 2]
  positionOf := #[0, 2, 0, 1]
  levelStarts := #[0, 1]
  values := ⟨#[none, some false, some false, some false], 3⟩

/-- Five clauses are free, so two go: the one with most levels, and of three with as many levels the
older of the two less active ones. -/
theorem reduce_removes_worst_half :
    ∃ p : Propagator, p.kind = .watched ∧ (∀ w ∈ p.watches?, w.Accommodates crowded) ∧
      crowded.learntRegion.map (fun entry => (entry.1, entry.2.lbd, entry.2.activity)) =
        [(1, 3, 0.0), (2, 2, 0.0), (3, 3, 1.0), (4, 3, 0.5), (5, 4, 2.0), (6, 3, 0.5)] ∧
      Reduction.free crowded crowdedTrail = {2, 3, 4, 5, 6} ∧
      Reduction.expendable crowded crowdedTrail = {3, 4, 5, 6} ∧
      (make .byLbd crowded Options.standard).reduction = some ⟨10000, 1.0, 0⟩ ∧
      10000 ≤ Reduction.greatestLimit ∧
      ∃ next u q, (make .byLbd crowded Options.standard).reduce crowded crowdedTrail p =
          .ok (next, crowded.without {4, 5}, u, q, 2) ∧
        next.reduction = some ⟨11001, 1.0, 2⟩ ∧ 11001 ≤ Word.greatest := by
  have wellFormed : crowded.WellFormed := by decide
  have activities : crowded.learntRegion.map
      (fun entry => (entry.1, entry.2.lbd, entry.2.activity)) =
        [(1, 3, 0.0), (2, 2, 0.0), (3, 3, 1.0), (4, 3, 0.5), (5, 4, 2.0), (6, 3, 0.5)] := by
    decide +kernel
  have free : Reduction.free crowded crowdedTrail = {2, 3, 4, 5, 6} := by decide +kernel
  have expendable : Reduction.expendable crowded crowdedTrail = {3, 4, 5, 6} := by decide +kernel
  have worst : Reduction.Worst crowded crowdedTrail {4, 5} := by decide +kernel
  have reduction : (make .byLbd crowded Options.standard).reduction = some ⟨10000, 1.0, 0⟩ := rfl
  have fits : 10000 ≤ Reduction.greatestLimit := by decide
  obtain ⟨w, _, registers⟩ := Watches.ofFormula_registers wellFormed
  have accommodates : ∀ v ∈ (Propagator.watched w 0).watches?, v.Accommodates crowded := by
    rintro _ ⟨⟩
    exact registers.accommodates
  obtain ⟨next, u, q, gone, ran, _, unique, after⟩ :=
    reduce_removes_worst (t := crowdedTrail) reduction fits accommodates
  obtain rfl := unique _ worst
  exact ⟨_, rfl, accommodates, activities, free, expendable, reduction, fits, next, u, q, ran,
    after⟩

end Database

end ClauseLearning
