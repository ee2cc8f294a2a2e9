import ClauseLearning.Proofs.Semantics
import ClauseLearning.Proofs.Trail.Backtrack

/-!
# How formula and trail fit together

Between the steps of a search the formula and the trail are coherent: every forced assignment has a
clause that forces it, and on every level below the current one all that was forced has been
assigned. The order of the literals in a clause does not matter here.

Main statements: coherence survives forced assignments, decisions at a closed level, and going back;
what is assigned at level 0 holds in every model of the formula; a clause that the trail refutes
has a literal of the current level.
-/

namespace ClauseLearning

namespace Formula

/-- The clauses of two formulas have the same literals, place by place, up to order. -/
structure SameClauses (f g : Formula) : Prop where
  numVars_eq : g.numVars = f.numVars
  inputCount_eq : g.inputCount = f.inputCount
  size_eq : g.size = f.size
  forth : ∀ {place : Nat} {ls : List Literal}, f.literalsAt place = some ls →
    ∃ ms, g.literalsAt place = some ms ∧ ls.Perm ms
  back : ∀ {place : Nat} {ms : List Literal}, g.literalsAt place = some ms →
    ∃ ls, f.literalsAt place = some ls ∧ ls.Perm ms

namespace SameClauses

/-- Formulas whose clauses have the same literals in the same order. -/
theorem of_literalsAt_eq {f g : Formula} (numVars_eq : g.numVars = f.numVars)
    (inputCount_eq : g.inputCount = f.inputCount) (size_eq : g.size = f.size)
    (same : ∀ place, g.literalsAt place = f.literalsAt place) : f.SameClauses g where
  numVars_eq := numVars_eq
  inputCount_eq := inputCount_eq
  size_eq := size_eq
  forth found := ⟨_, (same _).trans found, .refl _⟩
  back found := ⟨_, (same _).symm.trans found, .refl _⟩

theorem refl (f : Formula) : f.SameClauses f :=
  of_literalsAt_eq rfl rfl rfl fun _ => rfl

theorem symm {f g : Formula} (same : f.SameClauses g) : g.SameClauses f where
  numVars_eq := same.numVars_eq.symm
  inputCount_eq := same.inputCount_eq.symm
  size_eq := same.size_eq.symm
  forth found := by
    obtain ⟨ls, at_f, perm⟩ := same.back found
    exact ⟨ls, at_f, perm.symm⟩
  back found := by
    obtain ⟨ms, at_g, perm⟩ := same.forth found
    exact ⟨ms, at_g, perm.symm⟩

theorem trans {f g h : Formula} (first : f.SameClauses g) (second : g.SameClauses h) :
    f.SameClauses h where
  numVars_eq := second.numVars_eq.trans first.numVars_eq
  inputCount_eq := second.inputCount_eq.trans first.inputCount_eq
  size_eq := second.size_eq.trans first.size_eq
  forth found := by
    obtain ⟨ms, at_g, perm⟩ := first.forth found
    obtain ⟨ks, at_h, more⟩ := second.forth at_g
    exact ⟨ks, at_h, perm.trans more⟩
  back found := by
    obtain ⟨ms, at_g, more⟩ := second.back found
    obtain ⟨ls, at_f, perm⟩ := first.back at_g
    exact ⟨ls, at_f, perm.trans more⟩

theorem models {f g : Formula} (same : f.SameClauses g) {σ : Valuation} (models : f.Models σ) :
    g.Models σ := by
  intro place ms found
  obtain ⟨ls, at_f, perm⟩ := same.back found
  exact (someTrue_perm perm).1 (models place ls at_f)

theorem satisfiedBy_iff {f g : Formula} (same : f.SameClauses g) {σ : Valuation} :
    g.SatisfiedBy σ ↔ f.SatisfiedBy σ := by
  rw [Formula.satisfiedBy_iff, Formula.satisfiedBy_iff, same.inputCount_eq]
  constructor
  · intro satisfied place ls inside found
    obtain ⟨ms, at_g, perm⟩ := same.forth found
    exact (someTrue_perm perm).2 (satisfied place ms inside at_g)
  · intro satisfied place ms inside found
    obtain ⟨ls, at_f, perm⟩ := same.back found
    exact (someTrue_perm perm).1 (satisfied place ls inside at_f)

theorem sound {f g : Formula} (same : f.SameClauses g) (sound : f.Sound) : g.Sound :=
  fun σ satisfied => same.models (sound σ (same.satisfiedBy_iff.1 satisfied))

theorem plain {f g : Formula} (same : f.SameClauses g) (plain : f.Plain)
    (present : ∀ {place : Nat} {c : Clause}, g.clauses[place]? = some c → c.deleted = false) :
    g.Plain where
  distinct found := by
    obtain ⟨ls, at_f, perm⟩ := same.back found
    exact (perm.map Literal.var).nodup_iff.1 (plain.distinct at_f)
  present := present

theorem wellFormed {f g : Formula} (same : f.SameClauses g) (wellFormed : f.WellFormed)
    (present : ∀ {place : Nat} {c : Clause}, g.clauses[place]? = some c → c.deleted = false) :
    g.WellFormed where
  positive found l member := by
    obtain ⟨ls, at_f, perm⟩ := same.back found
    exact wellFormed.positive at_f l (perm.mem_iff.2 member)
  declared found l member := by
    obtain ⟨ls, at_f, perm⟩ := same.back found
    exact same.numVars_eq ▸ wellFormed.declared at_f l (perm.mem_iff.2 member)
  distinct := (same.plain wellFormed.plain present).distinct
  present := present
  input_le := by
    rw [same.inputCount_eq, same.size_eq]
    exact wellFormed.input_le

end SameClauses

/-- All clauses of one formula are clauses of another under the same places, up to the order of
their literals. -/
def Retains (f g : Formula) : Prop :=
  ∀ ⦃place : Nat⦄ ⦃ls : List Literal⦄, f.literalsAt place = some ls →
    ∃ ms, g.literalsAt place = some ms ∧ ls.Perm ms

theorem Retains.refl (f : Formula) : f.Retains f :=
  fun _ ls found => ⟨ls, found, .refl _⟩

theorem Retains.trans {f g h : Formula} (first : f.Retains g) (second : g.Retains h) :
    f.Retains h := by
  intro place ls found
  obtain ⟨ms, at_g, perm⟩ := first found
  obtain ⟨ks, at_h, more⟩ := second at_g
  exact ⟨ks, at_h, perm.trans more⟩

theorem SameClauses.retains {f g : Formula} (same : f.SameClauses g) : f.Retains g :=
  fun _ _ found => same.forth found

theorem retains_push (f : Formula) (c : Clause) : f.Retains (f.push c) :=
  fun _ ls found => ⟨ls, literalsAt_push_eq_some.2 (.inr found), .refl _⟩

/-! ### Replacing a clause -/

/-- The formula with the clause at a place replaced. -/
def withClause (f : Formula) (place : Nat) (c : Clause) : Formula :=
  { f with clauses := f.clauses.setIfInBounds place c }

@[simp] theorem size_withClause (f : Formula) (place : Nat) (c : Clause) :
    (f.withClause place c).size = f.size :=
  Array.size_setIfInBounds

theorem setClause_eq {f : Formula} {place : Nat} (inside : place < f.size) (c : Clause) :
    f.setClause place c = .ok (f.withClause place c) := by
  have within : place < f.clauses.size := inside
  simp [setClause, withClause, within, Array.setIfInBounds]

theorem getElem?_withClause {f : Formula} {place : Nat} (inside : place < f.size) (c : Clause)
    (p : Nat) :
    (f.withClause place c).clauses[p]? = if p = place then some c else f.clauses[p]? := by
  have within : place < f.clauses.size := inside
  rw [withClause, Array.getElem?_setIfInBounds]
  by_cases same : p = place
  · simp [same, within]
  · simp [same, Ne.symm same]

theorem literalsAt_withClause {f : Formula} {place : Nat} (inside : place < f.size) (c : Clause)
    (p : Nat) :
    (f.withClause place c).literalsAt p =
      if p = place then some c.literals else f.literalsAt p := by
  rw [literalsAt, getElem?_withClause inside, apply_ite (Option.map Clause.literals)]
  rfl

/-- A clause with the same literals in another order takes the place of a stored one. -/
theorem SameClauses.withClause {f : Formula} {place : Nat} {c d : Clause}
    (at_place : f.clauses[place]? = some c) (perm : c.literals.Perm d.literals) :
    f.SameClauses (f.withClause place d) := by
  have found := literalsAt_of_clause at_place
  have inside := lt_size_of_literalsAt found
  refine ⟨rfl, rfl, size_withClause f place d, ?_, ?_⟩
  · intro p ls at_p
    rw [literalsAt_withClause inside]
    by_cases same : p = place
    · subst same
      cases found.symm.trans at_p
      exact ⟨d.literals, by simp, perm⟩
    · exact ⟨ls, by simpa [same] using at_p, .refl _⟩
  · intro p ms at_p
    rw [literalsAt_withClause inside] at at_p
    by_cases same : p = place
    · subst same
      simp only [if_true, Option.some.injEq] at at_p
      exact ⟨c.literals, found, at_p ▸ perm⟩
    · exact ⟨ms, by simpa [same] using at_p, .refl _⟩

/-- A replacement that is not marked as deleted brings no mark. -/
theorem present_withClause {f : Formula} {place : Nat} {d : Clause} (inside : place < f.size)
    (present : ∀ {place : Nat} {c : Clause}, f.clauses[place]? = some c → c.deleted = false)
    (kept : d.deleted = false) {p : Nat} {e : Clause}
    (at_p : (f.withClause place d).clauses[p]? = some e) : e.deleted = false := by
  rw [getElem?_withClause inside] at at_p
  by_cases same : p = place
  · simp only [same, if_true, Option.some.injEq] at at_p
    exact at_p ▸ kept
  · exact present (by simpa [same] using at_p)

theorem Plain.withClause {f : Formula} (plain : f.Plain) {place : Nat} {c d : Clause}
    (at_place : f.clauses[place]? = some c) (perm : c.literals.Perm d.literals)
    (present : d.deleted = false) : (f.withClause place d).Plain := by
  have inside := lt_size_of_literalsAt (literalsAt_of_clause at_place)
  exact (SameClauses.withClause at_place perm).plain plain
    (present_withClause inside plain.present present)

theorem WellFormed.withClause {f : Formula} (wellFormed : f.WellFormed) {place : Nat}
    {c d : Clause} (at_place : f.clauses[place]? = some c) (perm : c.literals.Perm d.literals)
    (present : d.deleted = false) : (f.withClause place d).WellFormed := by
  have inside := lt_size_of_literalsAt (literalsAt_of_clause at_place)
  exact (SameClauses.withClause at_place perm).wellFormed wellFormed
    (present_withClause inside wellFormed.present present)

end Formula

namespace Trail

/-- Every forced assignment has a clause with its literal whose other literals were false before. -/
def Justified (t : Trail) (f : Formula) : Prop :=
  ∀ ⦃i : Nat⦄ ⦃s : Step⦄ ⦃place : Nat⦄, t.steps[i]? = some s → s.reason = .clause place →
    ∃ ls, f.literalsAt place = some ls ∧ s.literal ∈ ls ∧
      ∀ q ∈ ls, q ≠ s.literal → t.HoldsBefore i (-q)

/-- Whenever all literals of a clause but one are false by level `k`, that one is true by then. -/
def ClosedAt (t : Trail) (f : Formula) (k : Nat) : Prop :=
  ∀ ⦃place : Nat⦄ ⦃ls : List Literal⦄, f.literalsAt place = some ls → ∀ l ∈ ls,
    (∀ q ∈ ls, q ≠ l → t.HoldsBy k (-q)) → t.HoldsBy k l

/-- All literals of a list are false. -/
def Refutes (t : Trail) (ls : List Literal) : Prop :=
  ∀ q ∈ ls, t.Holds (-q)

/-- What formula and trail keep to between the steps of a search. -/
structure Coherent (t : Trail) (f : Formula) : Prop where
  wellFormed : f.WellFormed
  valid : t.Valid f.numVars
  justified : t.Justified f
  nonempty : ∀ {place : Nat}, f.literalsAt place ≠ some []
  units : ∀ {place : Nat} {l : Literal}, f.literalsAt place = some [l] → t.HoldsBy 0 l
  closed : ∀ k < t.level, t.ClosedAt f k
  pending : ∀ {i : Nat} {s : Step}, t.steps[i]? = some s → t.head ≤ i → s.level = t.level

/-- What conflict analysis asks of a trail: positions, levels and reasons are in order. -/
structure Explained (t : Trail) (f : Formula) (n : Nat) : Prop extends Charted t n where
  justified : t.Justified f

theorem Coherent.explained {t : Trail} {f : Formula} (coherent : t.Coherent f) :
    t.Explained f f.numVars :=
  ⟨coherent.valid.charted, coherent.justified⟩

/-! ### Rearranged clauses -/

theorem Justified.of_same {t : Trail} {f g : Formula} (justified : t.Justified f)
    (same : f.SameClauses g) : t.Justified g := by
  intro i s place at_i reason
  obtain ⟨ls, found, member, others⟩ := justified at_i reason
  obtain ⟨ms, at_g, perm⟩ := same.forth found
  exact ⟨ms, at_g, perm.mem_iff.1 member, fun q q_mem => others q (perm.mem_iff.2 q_mem)⟩

theorem ClosedAt.of_same {t : Trail} {f g : Formula} {k : Nat} (closed : t.ClosedAt f k)
    (same : f.SameClauses g) : t.ClosedAt g k := by
  intro place ms found l member others
  obtain ⟨ls, at_f, perm⟩ := same.back found
  exact closed at_f l (perm.mem_iff.2 member) fun q q_mem => others q (perm.mem_iff.1 q_mem)

theorem Coherent.of_same {t : Trail} {f g : Formula} (coherent : t.Coherent f)
    (same : f.SameClauses g) (wellFormed : g.WellFormed) : t.Coherent g where
  wellFormed := wellFormed
  valid := same.numVars_eq ▸ coherent.valid
  justified := coherent.justified.of_same same
  nonempty := by
    intro place found
    obtain ⟨ls, at_f, perm⟩ := same.back found
    exact coherent.nonempty (at_f.trans (congrArg some perm.eq_nil))
  units := by
    intro place l found
    obtain ⟨ls, at_f, perm⟩ := same.back found
    exact coherent.units (at_f.trans (congrArg some perm.eq_singleton))
  closed k lower := (coherent.closed k lower).of_same same
  pending := coherent.pending

/-! ### Assignments -/

theorem ClosedAt.of_extends {t next : Trail} {f : Formula} {k : Nat} (closed : t.ClosedAt f k)
    (grows : t.Extends next) (lower : k < t.level) : next.ClosedAt f k := by
  intro place ls found l member others
  rw [grows.holdsBy_iff lower]
  exact closed found l member fun q q_mem different =>
    (grows.holdsBy_iff lower).1 (others q q_mem different)

theorem Refutes.of_extends {t next : Trail} {ls : List Literal} (refutes : t.Refutes ls)
    (grows : t.Extends next) : next.Refutes ls :=
  fun q member => grows.holds (refutes q member)

theorem holdsBefore_size {t : Trail} {l : Literal} (holds : t.Holds l) :
    t.HoldsBefore t.size l := by
  obtain ⟨i, s, at_i, rfl⟩ := holds
  exact ⟨i, s, lt_size at_i, at_i, rfl⟩

/-- The justification of a trail with one more forced assignment. -/
theorem Justified.pushed {t : Trail} {f : Formula} {place : Nat} {l : Literal} {ls : List Literal}
    (justified : t.Justified f) (found : f.literalsAt place = some ls) (member : l ∈ ls)
    (others : ∀ q ∈ ls, q ≠ l → t.Holds (-q)) :
    (t.pushed l (.clause place)).Justified f := by
  have grows := Extends.pushed t l (.clause place)
  intro i s origin at_i reason
  rcases getElem?_pushed_eq_some.1 at_i with old | ⟨rfl, rfl⟩
  · obtain ⟨ms, at_origin, s_mem, earlier⟩ := justified old reason
    exact ⟨ms, at_origin, s_mem, fun q q_mem different =>
      grows.holdsBefore (earlier q q_mem different)⟩
  · cases reason
    exact ⟨ls, found, member, fun q q_mem different =>
      grows.holdsBefore (holdsBefore_size (others q q_mem different))⟩

/-- A clause with all literals false but one that has no value forces this one. -/
theorem Coherent.force {t : Trail} {f : Formula} {place : Nat} {l : Literal} {ls : List Literal}
    (coherent : t.Coherent f) (found : f.literalsAt place = some ls) (member : l ∈ ls)
    (others : ∀ q ∈ ls, q ≠ l → t.Holds (-q)) (free : t.values.value? l.var = none) :
    t.push l (.clause place) = .ok (t.pushed l (.clause place)) ∧
      (t.pushed l (.clause place)).Coherent f := by
  -- A lower level does not see the new step, which is of the current one.
  have grows := Extends.pushed t l (.clause place)
  obtain ⟨ran, valid⟩ := coherent.valid.push (coherent.wellFormed.positive found l member)
    (coherent.wellFormed.declared found l member) free place
  refine ⟨ran,
    { wellFormed := coherent.wellFormed
      valid := valid
      justified := coherent.justified.pushed found member others
      nonempty := coherent.nonempty
      units := fun at_place => grows.holdsBy (coherent.units at_place)
      closed := fun k lower => (coherent.closed k lower).of_extends grows lower
      pending := ?_ }⟩
  intro i s at_i waiting
  rcases getElem?_pushed_eq_some.1 at_i with old | ⟨rfl, rfl⟩
  · exact coherent.pending old waiting
  · rfl

/-- The trail with another number of steps counted as propagated. -/
theorem Coherent.withHead {t : Trail} {f : Formula} {head : Nat} (coherent : t.Coherent f)
    (le : t.head ≤ head) (inside : head ≤ t.size) : ({ t with head := head }).Coherent f where
  wellFormed := coherent.wellFormed
  valid := { coherent.valid with head_le := inside }
  justified := coherent.justified
  nonempty := coherent.nonempty
  units := coherent.units
  closed := coherent.closed
  pending at_i waiting := coherent.pending at_i (Nat.le_trans le waiting)

/-! ### Decisions -/

theorem holdsBy_pushDecision_iff {t : Trail} {k : Nat} {l q : Literal} (lower : k ≤ t.level) :
    (t.openLevel.pushed l .decision).HoldsBy k q ↔ t.HoldsBy k q := by
  rw [holdsBy_pushed, level_openLevel]
  constructor
  · rintro (holds | ⟨_, above⟩)
    · exact holds
    · omega
  · exact .inl

/-- A decision at a closed level whose steps have all been propagated. -/
theorem Coherent.decide {t : Trail} {f : Formula} {l : Literal} (coherent : t.Coherent f)
    (closed : t.ClosedAt f t.level) (done : t.head = t.size) (positive : 0 < l.var)
    (declared : l.var ≤ f.numVars) (free : t.values.value? l.var = none) :
    t.pushDecision l = .ok (t.openLevel.pushed l .decision) ∧
      (t.openLevel.pushed l .decision).Coherent f := by
  obtain ⟨ran, valid⟩ := coherent.valid.pushDecision positive declared free
  refine ⟨ran,
    { wellFormed := coherent.wellFormed
      valid := valid
      justified := ?_
      nonempty := coherent.nonempty
      units := ?_
      closed := ?_
      pending := ?_ }⟩
  · intro i s place at_i reason
    rcases getElem?_pushed_eq_some.1 at_i with old | ⟨_, rfl⟩
    · obtain ⟨ls, found, member, others⟩ := coherent.justified old reason
      refine ⟨ls, found, member, fun q q_mem different => ?_⟩
      obtain ⟨j, r, before, at_j, same⟩ := others q q_mem different
      exact ⟨j, r, before, getElem?_pushed_eq_some.2 (.inl at_j), same⟩
    · cases reason
  · intro place q found
    exact (holdsBy_pushDecision_iff (Nat.zero_le _)).2 (coherent.units found)
  · intro k lower
    rw [level_pushed, level_openLevel] at lower
    have le : k ≤ t.level := Nat.lt_succ_iff.1 lower
    -- The level that the decision leaves behind is closed, as the lower ones were.
    have closed_k : t.ClosedAt f k := by
      rcases Nat.lt_or_eq_of_le le with less | rfl
      · exact coherent.closed k less
      · exact closed
    intro place ls found q member others
    rw [holdsBy_pushDecision_iff le]
    exact closed_k found q member fun r r_mem different =>
      (holdsBy_pushDecision_iff le).1 (others r r_mem different)
  · intro i s at_i waiting
    rcases getElem?_pushed_eq_some.1 at_i with old | ⟨_, rfl⟩
    -- Only the decision waits.
    · have inside : i < t.size := lt_size old
      rw [head_pushed] at waiting
      change t.head ≤ i at waiting
      omega
    · rfl

/-! ### Going back -/

/-- Below the first step that waits, all levels are complete; those that wait are of the current
level, so going back to a lower one leaves none. -/
theorem Coherent.size_le_head {t next : Trail} {f : Formula} {k : Nat} (coherent : t.Coherent f)
    (lower : k < t.level) (back : t.Backtracks k next) : next.size ≤ t.head := by
  by_contra waiting
  have inside : t.head < next.size := Nat.not_le.1 waiting
  have at_head : next.steps[t.head]? = some next.steps[t.head] := Array.getElem?_eq_getElem inside
  obtain ⟨old, low⟩ := back.steps_iff.1 at_head
  have level := coherent.pending old (Nat.le_refl _)
  omega

theorem Coherent.head_eq_size {t next : Trail} {f : Formula} {k : Nat} (coherent : t.Coherent f)
    (lower : k < t.level) (back : t.Backtracks k next) : next.head = next.size := by
  rw [back.head_eq]
  exact Nat.min_eq_right (coherent.size_le_head lower back)

theorem ClosedAt.of_backtracks {t next : Trail} {f : Formula} {k m : Nat}
    (closed : t.ClosedAt f m) (back : t.Backtracks k next) (low : m ≤ k) :
    next.ClosedAt f m := by
  intro place ls found l member others
  rw [back.holdsBy_iff low]
  exact closed found l member fun q q_mem different =>
    (back.holdsBy_iff low).1 (others q q_mem different)

theorem Justified.of_backtracks {t next : Trail} {f : Formula} {n k : Nat}
    (justified : t.Justified f) (valid : t.Valid n) (back : t.Backtracks k next) :
    next.Justified f := by
  intro i s place at_i reason
  obtain ⟨old, low⟩ := back.steps_iff.1 at_i
  obtain ⟨ls, found, member, others⟩ := justified old reason
  refine ⟨ls, found, member, fun q q_mem different => ?_⟩
  obtain ⟨j, r, before, at_j, same⟩ := others q q_mem different
  have level := valid.level_mono at_j old (Nat.le_of_lt before)
  exact ⟨j, r, before, back.steps_iff.2 ⟨at_j, Nat.le_trans level low⟩, same⟩

/-- Going back to a lower level gives a coherent trail, closed at that level, on which no step
waits. -/
theorem Coherent.backtrack {t next : Trail} {f : Formula} {k : Nat} (coherent : t.Coherent f)
    (lower : k < t.level) (valid : next.Valid f.numVars) (back : t.Backtracks k next) :
    next.Coherent f ∧ next.ClosedAt f k ∧ next.head = next.size := by
  have done := coherent.head_eq_size lower back
  refine ⟨
    { wellFormed := coherent.wellFormed
      valid := valid
      justified := coherent.justified.of_backtracks coherent.valid back
      nonempty := coherent.nonempty
      units := fun found => (back.holdsBy_iff (Nat.zero_le _)).2 (coherent.units found)
      closed := ?_
      pending := ?_ },
    (coherent.closed k lower).of_backtracks back (Nat.le_refl _), done⟩
  -- Levels below `k` were closed before, and they have lost none of their steps.
  · intro m below
    rw [back.level_eq] at below
    exact (coherent.closed m (Nat.lt_trans below lower)).of_backtracks back (Nat.le_of_lt below)
  -- No step waits, since all that is left had been propagated.
  · intro i s at_i waiting
    have inside := lt_size at_i
    omega

/-! ### Learning -/

/-- A literal that is false because of a step of the current level. -/
def FalseNow (t : Trail) (l : Literal) : Prop :=
  ∃ (i : Nat) (s : Step), t.steps[i]? = some s ∧ s.literal = -l ∧ s.level = t.level

theorem FalseNow.holds {t : Trail} {l : Literal} (now : t.FalseNow l) : t.Holds (-l) := by
  obtain ⟨i, s, at_i, refuted, _⟩ := now
  exact ⟨i, s, at_i, refuted⟩

theorem FalseNow.of_extends {t next : Trail} {l : Literal} (now : t.FalseNow l)
    (grows : t.Extends next) : next.FalseNow l := by
  obtain ⟨i, s, at_i, refuted, level⟩ := now
  exact ⟨i, s, grows.keeps at_i, refuted, level.trans grows.level_eq.symm⟩

theorem FalseNow.level_eq {t : Trail} {n : Nat} {l : Literal} (now : t.FalseNow l)
    (located : t.Located n) {i : Nat} {s : Step} (at_i : t.steps[i]? = some s)
    (refuted : s.literal = -l) : s.level = t.level := by
  obtain ⟨j, r, at_j, same, level⟩ := now
  rw [located.step_unique at_i at_j (by rw [refuted, same])]
  exact level

/-- A clause with literal `a` and others that forces `a` now and could not have done so on a lower
level: the other literals are false, the first of them because of the current level. -/
structure Asserts (t : Trail) (n : Nat) (a : Literal) (others : List Literal) : Prop where
  positive : ∀ l ∈ a :: others, 0 < l.var
  declared : ∀ l ∈ a :: others, l.var ≤ n
  distinct : ((a :: others).map Literal.var).Nodup
  free : t.values.value? a.var = none
  refuted : ∀ q ∈ others, t.Holds (-q)
  root : others = [] → t.level = 0
  second : ∀ {b : Literal} {rest : List Literal}, others = b :: rest → t.FalseNow b

theorem Asserts.wellFormed {t : Trail} {f : Formula} {a : Literal} {others : List Literal}
    {c : Clause} (asserts : t.Asserts f.numVars a others) (shape : c.literals = a :: others)
    (present : c.deleted = false) (wellFormed : f.WellFormed) : (f.push c).WellFormed := by
  refine wellFormed.push ⟨?_, present⟩ ?_
  · rw [shape]
    exact asserts.distinct
  · rw [shape]
    exact fun l member => ⟨asserts.positive l member, asserts.declared l member⟩

/-- On the levels below, a clause that asserts a literal asks for nothing. -/
theorem Asserts.closed {t : Trail} {n k : Nat} {a l : Literal} {others : List Literal}
    {reason : Reason} (asserts : t.Asserts n a others) (valid : (t.pushed a reason).Valid n)
    (lower : k < t.level) (all : ∀ q ∈ a :: others, q ≠ l → (t.pushed a reason).HoldsBy k (-q)) :
    False := by
  have grows := Extends.pushed t a reason
  match others, asserts with
  -- A clause of one literal is asserted at level 0, below which there is none.
  | [], asserts =>
    have root := asserts.root rfl
    omega
  | b :: rest, asserts =>
    by_cases same : b = l
    · -- Then `a` would have to be false, but it has just been assigned.
      have different : a ≠ l := by
        intro equal
        have distinct := asserts.distinct
        simp [equal, same] at distinct
      have refuted := (all a (List.mem_cons_self ..) different).holds
      exact valid.not_holds_neg (holds_pushed.2 (.inr rfl)) refuted
    · -- The second literal was not false before the current level.
      obtain ⟨i, s, at_i, refuted, low⟩ := all b (by simp) same
      have level := ((asserts.second rfl).of_extends grows).level_eq valid.toLocated at_i refuted
      rw [level_pushed] at level
      omega

/-- Storing a clause and assigning the literal it asserts. -/
theorem Coherent.learn {t : Trail} {f : Formula} {a : Literal} {others : List Literal} {c : Clause}
    (coherent : t.Coherent f) (asserts : t.Asserts f.numVars a others)
    (shape : c.literals = a :: others) (present : c.deleted = false) :
    t.push a (.clause f.size) = .ok (t.pushed a (.clause f.size)) ∧
      (t.pushed a (.clause f.size)).Coherent (f.push c) := by
  have grows := Extends.pushed t a (.clause f.size)
  have a_mem : a ∈ a :: others := List.mem_cons_self ..
  obtain ⟨ran, valid⟩ := coherent.valid.push (asserts.positive a a_mem) (asserts.declared a a_mem)
    asserts.free f.size
  -- The new clause stands behind the old ones, which keep their places.
  have at_new : (f.push c).literalsAt f.size = some (a :: others) :=
    Formula.literalsAt_push_eq_some.2 (.inl ⟨rfl, shape⟩)
  have at_old : ∀ {place ls}, f.literalsAt place = some ls →
      (f.push c).literalsAt place = some ls := fun found =>
    Formula.literalsAt_push_eq_some.2 (.inr found)
  have justified : t.Justified (f.push c) := by
    intro i s place at_i reason
    obtain ⟨ls, found, member, others⟩ := coherent.justified at_i reason
    exact ⟨ls, at_old found, member, others⟩
  refine ⟨ran,
    { wellFormed := asserts.wellFormed shape present coherent.wellFormed
      valid := valid
      justified := justified.pushed at_new a_mem ?_
      nonempty := ?_
      units := ?_
      closed := ?_
      pending := ?_ }⟩
  · intro q member different
    exact asserts.refuted q ((List.mem_cons.1 member).resolve_left different)
  · intro place found
    rcases Formula.literalsAt_push_eq_some.1 found with ⟨_, none_left⟩ | old
    · simp [shape] at none_left
    · exact coherent.nonempty old
  · intro place l found
    rcases Formula.literalsAt_push_eq_some.1 found with ⟨_, alone⟩ | old
    · rw [shape, List.cons.injEq] at alone
      obtain ⟨rfl, none_left⟩ := alone
      exact holdsBy_pushed.2 (.inr ⟨rfl, Nat.le_of_eq (asserts.root none_left)⟩)
    · exact grows.holdsBy (coherent.units old)
  · intro k lower place ls found l member others_false
    rcases Formula.literalsAt_push_eq_some.1 found with ⟨_, rfl⟩ | old
    · rw [shape] at others_false
      exact (asserts.closed valid lower others_false).elim
    · exact (coherent.closed k lower).of_extends grows lower old l member others_false
  · intro i s at_i waiting
    rcases getElem?_pushed_eq_some.1 at_i with old | ⟨_, rfl⟩
    · exact coherent.pending old waiting
    · rfl

/-! ### Consequences -/

/-- What is assigned at level 0 holds in every model of the formula. -/
theorem Explained.isTrue_of_root {t : Trail} {f : Formula} {n : Nat} (explained : t.Explained f n)
    {σ : Valuation} (models : f.Models σ) (i : Nat) :
    ∀ s : Step, t.steps[i]? = some s → s.level = 0 → s.literal.IsTrue σ := by
  -- Strong induction along the trail: the clause that forced a literal has it true, since its other
  -- literals were refuted by earlier steps of level 0.
  induction i using Nat.strong_induction_on with
  | _ i ih =>
    intro s at_i root
    cases reason : s.reason with
    | decision =>
      have above := explained.level_pos_of_decision at_i reason
      omega
    | clause place =>
      obtain ⟨ls, found, member, others⟩ := explained.justified at_i reason
      obtain ⟨q, q_mem, true_q⟩ := models place ls found
      by_cases same : q = s.literal
      · exact same ▸ true_q
      · obtain ⟨j, r, before, at_j, refuted⟩ := others q q_mem same
        have level := explained.level_mono at_j at_i (Nat.le_of_lt before)
        have true_neg := ih j before r at_j (by omega)
        rw [refuted, Literal.isTrue_neg] at true_neg
        exact absurd true_q true_neg

/-- A clause that is refuted has a literal that was refuted at the current level. -/
theorem Coherent.exists_current {t : Trail} {f : Formula} {place : Nat} {ls : List Literal}
    (coherent : t.Coherent f) (found : f.literalsAt place = some ls) (refuted : t.Refutes ls)
    (above : 0 < t.level) :
    ∃ q ∈ ls, t.FalseNow q := by
  by_contra none_current
  -- Otherwise the clause would be refuted by a lower level, which is closed.
  have low : ∀ q ∈ ls, t.HoldsBy (t.level - 1) (-q) := by
    intro q member
    obtain ⟨i, s, at_i, same⟩ := refuted q member
    refine ⟨i, s, at_i, same, ?_⟩
    have le := coherent.valid.level_le at_i
    have different : s.level ≠ t.level := fun current =>
      none_current ⟨q, member, i, s, at_i, same, current⟩
    omega
  cases ls with
  | nil => exact coherent.nonempty found
  | cons l rest =>
    have member : l ∈ l :: rest := List.mem_cons_self ..
    have holds := coherent.closed (t.level - 1) (by omega) found l member
      fun q q_mem _ => low q q_mem
    exact coherent.valid.not_holds_neg holds.holds (low l member).holds

/-- A formula with a clause that is refuted at level 0 has no model. -/
theorem Explained.not_models_of_refutes {t : Trail} {f : Formula} {n place : Nat}
    {ls : List Literal} (explained : t.Explained f n) (found : f.literalsAt place = some ls)
    (refuted : t.Refutes ls) (root : t.level = 0) (σ : Valuation) : ¬f.Models σ := by
  intro models
  obtain ⟨q, member, true_q⟩ := models place ls found
  obtain ⟨i, s, at_i, same⟩ := refuted q member
  have level := explained.level_le at_i
  have true_neg := explained.isTrue_of_root models i s at_i (by omega)
  rw [same, Literal.isTrue_neg] at true_neg
  exact true_neg true_q

/-- Under a closed trail, a clause without a true literal has another literal without a value beside
each of its literals. -/
theorem Coherent.exists_other_free {t : Trail} {f : Formula} {place : Nat} {ls : List Literal}
    (coherent : t.Coherent f) (closed : t.ClosedAt f t.level)
    (found : f.literalsAt place = some ls) (none_true : ¬∃ l ∈ ls, t.Holds l) {l : Literal}
    (member : l ∈ ls) : ∃ q ∈ ls, q ≠ l ∧ t.values.value? q.var = none := by
  by_contra no_other
  -- Otherwise all other literals are false, and then the closed trail has this one true.
  have refuted : ∀ q ∈ ls, q ≠ l → t.HoldsBy t.level (-q) := by
    intro q q_mem different
    have assigned : ¬(¬t.Holds q ∧ ¬t.Holds (-q)) := fun neither =>
      no_other ⟨q, q_mem, different, coherent.valid.value?_eq_none.2 neither⟩
    by_contra not_refuted
    refine assigned ⟨fun true_q => none_true ⟨q, q_mem, true_q⟩, ?_⟩
    rintro ⟨i, s, at_i, same⟩
    exact not_refuted ⟨i, s, at_i, same, coherent.valid.level_le at_i⟩
  exact none_true ⟨l, member, (closed found l member refuted).holds⟩

/-- Under a closed trail, a clause has a true literal or two literals without a value. -/
theorem Coherent.true_or_two_free {t : Trail} {f : Formula} {place : Nat} {ls : List Literal}
    (coherent : t.Coherent f) (closed : t.ClosedAt f t.level)
    (found : f.literalsAt place = some ls) :
    (∃ l ∈ ls, t.Holds l) ∨ ∃ l ∈ ls, ∃ q ∈ ls, q ≠ l ∧ t.values.value? l.var = none ∧
      t.values.value? q.var = none := by
  by_cases some_true : ∃ l ∈ ls, t.Holds l
  · exact .inl some_true
  · obtain ⟨x, x_mem⟩ := List.exists_mem_of_ne_nil ls fun empty => coherent.nonempty (empty ▸ found)
    obtain ⟨l, member, _, free⟩ := coherent.exists_other_free closed found some_true x_mem
    obtain ⟨q, q_mem, different, free_q⟩ :=
      coherent.exists_other_free closed found some_true member
    exact .inr ⟨l, member, q, q_mem, different, free, free_q⟩

/-- Under a closed trail that gives every variable a value, every clause has a true literal. -/
theorem Coherent.exists_holds {t : Trail} {f : Formula} {place : Nat} {ls : List Literal}
    (coherent : t.Coherent f) (closed : t.ClosedAt f t.level) (full : t.size = f.numVars)
    (found : f.literalsAt place = some ls) : ∃ l ∈ ls, t.Holds l := by
  rcases coherent.true_or_two_free closed found with some_true | ⟨l, member, _, _, _, free, _⟩
  · exact some_true
  · have assigned := coherent.valid.value?_isSome_of_full full
      (coherent.wellFormed.positive found l member) (coherent.wellFormed.declared found l member)
    rw [free] at assigned
    cases assigned

end Trail

/-- What propagation makes of a formula and a trail: clauses are rearranged and forced literals
assigned, until a clause is refuted or the level is closed. -/
structure Propagates (f : Formula) (t : Trail) (g : Formula) (next : Trail)
    (conflict : Option Nat) : Prop where
  same : f.SameClauses g
  grows : t.Extends next
  coherent : next.Coherent g
  refuted : ∀ {place : Nat}, conflict = some place →
    ∃ ls, g.literalsAt place = some ls ∧ next.Refutes ls
  closed : conflict = none → next.ClosedAt g next.level
  done : conflict = none → next.head = next.size

end ClauseLearning
