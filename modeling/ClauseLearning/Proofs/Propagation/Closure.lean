import ClauseLearning.Proofs.Propagation.Propagator

/-!
# Unit closures

The unit closure of some literals is the least set that has them and, with the complements of all
literals of a stored clause but one, the remaining literal. It knows nothing of trails, watched
literals or the order in which clauses are looked at.

Main statements: what propagation assigns is in the unit closure of the trail that it started from,
by induction along the trail; without a conflict the trail has all of it, by induction on the
closure. So a propagator ends without a conflict exactly when the unit closure is consistent, and
whatever two propagators do in between, on the same clauses and literals they agree.
-/

namespace ClauseLearning

namespace Formula

/-- The least set of literals that has the given ones and, with the complements of all literals of a
clause that is not deleted but one, the remaining literal. -/
inductive UnitClosure (f : Formula) (given : Literal → Prop) : Literal → Prop where
  | given {l : Literal} (known : given l) : UnitClosure f given l
  | unit {place : Nat} {c : Clause} {l : Literal} (stored : f.clauses[place]? = some c)
      (present : c.deleted = false) (member : l ∈ c.literals)
      (others : ∀ q ∈ c.literals, q ≠ l → UnitClosure f given (-q)) : UnitClosure f given l

/-- The unit closure has no literal together with its complement, and it refutes no clause. -/
structure UnitConsistent (f : Formula) (given : Literal → Prop) : Prop where
  not_both : ∀ {l : Literal}, f.UnitClosure given l → ¬f.UnitClosure given (-l)
  unrefuted : ∀ {place : Nat} {c : Clause}, f.clauses[place]? = some c → c.deleted = false →
    ∃ q ∈ c.literals, ¬f.UnitClosure given (-q)

/-- The unit closure depends on the clauses only up to the order of their literals. -/
theorem UnitClosure.of_same {f g : Formula} {given known : Literal → Prop} {l : Literal}
    (same : f.SameClauses g) (wellFormed : g.WellFormed) (included : ∀ l, given l → known l)
    (closure : f.UnitClosure given l) : g.UnitClosure known l := by
  induction closure with
  | given is_given => exact .given (included _ is_given)
  | unit stored _ member _ ih =>
    obtain ⟨ms, at_g, perm⟩ := same.forth (literalsAt_of_clause stored)
    obtain ⟨d, at_place, rfl⟩ := literalsAt_eq_some.1 at_g
    exact .unit at_place (wellFormed.present at_place) (perm.mem_iff.1 member)
      fun q q_mem => ih q (perm.mem_iff.2 q_mem)

theorem UnitConsistent.of_same {f g : Formula} {given known : Literal → Prop}
    (same : f.SameClauses g) (wellFormed : f.WellFormed)
    (included : ∀ l, g.UnitClosure known l → f.UnitClosure given l)
    (consistent : f.UnitConsistent given) : g.UnitConsistent known where
  not_both closure complement :=
    consistent.not_both (included _ closure) (included _ complement)
  unrefuted stored _ := by
    obtain ⟨ls, at_f, perm⟩ := same.back (literalsAt_of_clause stored)
    obtain ⟨c, at_place, rfl⟩ := literalsAt_eq_some.1 at_f
    obtain ⟨q, member, open_q⟩ := consistent.unrefuted at_place (wellFormed.present at_place)
    exact ⟨q, perm.mem_iff.1 member, fun refuted => open_q (included _ refuted)⟩

end Formula

namespace Trail

theorem Recorded.value?_eq_of_holds_iff {t u : Trail} {n m : Nat} (recorded : t.Recorded n)
    (recorded_u : u.Recorded m) (holds_iff : ∀ l, t.Holds l ↔ u.Holds l) (v : Variable) :
    t.values.value? v = u.values.value? v := by
  apply Option.ext
  intro b
  rw [recorded.value?_eq_some, recorded_u.value?_eq_some]
  exact holds_iff ⟨v, b⟩

/-- The steps that an extension adds are forced. -/
theorem Extends.exists_reason {t next : Trail} {n i : Nat} {s : Step} (grows : t.Extends next)
    (valid : t.Valid n) (layered : next.Layered) (at_i : next.steps[i]? = some s)
    (late : t.size ≤ i) : ∃ place, s.reason = .clause place := by
  cases reason : s.reason with
  | clause place => exact ⟨place, rfl⟩
  | decision =>
    -- A decision stands where a level starts, and all levels start on the old trail.
    obtain ⟨k, _, start⟩ := layered.decision at_i reason
    rw [grows.levelStarts_eq] at start
    obtain ⟨first, at_start, _⟩ := valid.start start
    exact absurd (lt_size at_start) (Nat.not_lt.2 late)

theorem Extends.isPrefix {t next : Trail} (grows : t.Extends next) :
    t.steps.toList <+: next.steps.toList := by
  rw [List.prefix_iff_getElem?]
  intro i inside
  have at_i : t.steps[i]? = some t.steps.toList[i] := by simp
  simpa using grows.keeps at_i

end Trail

namespace Propagates

variable {f g : Formula} {t next : Trail} {conflict : Option Nat}

/-- What has been assigned is in the unit closure. -/
theorem closure_of_step (propagates : Propagates f t g next conflict) (coherent : t.Coherent f)
    (i : Nat) : ∀ s : Step, next.steps[i]? = some s → f.UnitClosure t.Holds s.literal := by
  -- Strong induction along the trail: the other literals of a reason were refuted before.
  induction i using Nat.strong_induction_on with
  | _ i ih =>
    intro s at_i
    rcases propagates.grows.adds at_i with old | ⟨late, _⟩
    · exact .given ⟨i, s, old, rfl⟩
    · obtain ⟨place, reason⟩ := propagates.grows.exists_reason coherent.valid
        propagates.coherent.valid.toLayered at_i late
      obtain ⟨ms, found, member, others⟩ := propagates.coherent.justified at_i reason
      obtain ⟨ls, at_f, perm⟩ := propagates.same.back found
      obtain ⟨c, stored, rfl⟩ := Formula.literalsAt_eq_some.1 at_f
      refine .unit stored (coherent.wellFormed.present stored) (perm.mem_iff.2 member) ?_
      intro q q_mem different
      obtain ⟨j, r, before, at_j, refuted⟩ := others q (perm.mem_iff.1 q_mem) different
      exact refuted ▸ ih j before r at_j

theorem closure_of_holds (propagates : Propagates f t g next conflict) (coherent : t.Coherent f)
    {l : Literal} (holds : next.Holds l) : f.UnitClosure t.Holds l := by
  obtain ⟨i, s, at_i, rfl⟩ := holds
  exact propagates.closure_of_step coherent i s at_i

/-- Without a conflict all of the unit closure has been assigned. -/
theorem holds_of_closure (propagates : Propagates f t g next none) {l : Literal}
    (closure : f.UnitClosure t.Holds l) : next.Holds l := by
  induction closure with
  | given holds => exact propagates.grows.holds holds
  | unit stored _ member _ ih =>
    obtain ⟨ms, found, perm⟩ := propagates.same.forth (Formula.literalsAt_of_clause stored)
    refine (propagates.closed rfl found _ (perm.mem_iff.1 member) fun q q_mem different => ?_).holds
    obtain ⟨i, s, at_i, refuted⟩ := ih q (perm.mem_iff.2 q_mem) different
    exact ⟨i, s, at_i, refuted, propagates.coherent.valid.level_le at_i⟩

theorem holds_iff (propagates : Propagates f t g next none) (coherent : t.Coherent f)
    (l : Literal) : next.Holds l ↔ f.UnitClosure t.Holds l :=
  ⟨propagates.closure_of_holds coherent, propagates.holds_of_closure⟩

/-- A conflict is a clause that the unit closure refutes. -/
theorem not_consistent {place : Nat} (propagates : Propagates f t g next (some place))
    (coherent : t.Coherent f) : ¬f.UnitConsistent t.Holds := by
  intro consistent
  obtain ⟨ms, found, refuted⟩ := propagates.refuted rfl
  obtain ⟨ls, at_f, perm⟩ := propagates.same.back found
  obtain ⟨c, stored, rfl⟩ := Formula.literalsAt_eq_some.1 at_f
  obtain ⟨q, member, open_q⟩ :=
    consistent.unrefuted stored (coherent.wellFormed.present stored)
  exact open_q (propagates.closure_of_holds coherent (refuted q (perm.mem_iff.1 member)))

/-- A closed trail refutes no clause, since it would make the literals of the clause true too. -/
theorem consistent (propagates : Propagates f t g next none) (coherent : t.Coherent f) :
    f.UnitConsistent t.Holds := by
  have recorded := propagates.coherent.valid.toRecorded
  refine ⟨fun {l} closure complement => ?_, fun {place c} stored present => ?_⟩
  · exact recorded.not_holds_neg (propagates.holds_of_closure closure)
      (propagates.holds_of_closure complement)
  · by_contra all_refuted
    simp only [not_exists, not_and, not_not] at all_refuted
    obtain ⟨l, member⟩ : ∃ l, l ∈ c.literals := by
      apply List.exists_mem_of_ne_nil
      intro empty
      exact coherent.nonempty ((Formula.literalsAt_of_clause stored).trans (congrArg some empty))
    have closure : f.UnitClosure t.Holds l :=
      .unit stored present member fun q q_mem _ => all_refuted q q_mem
    exact recorded.not_holds_neg (propagates.holds_of_closure closure)
      (propagates.holds_of_closure (all_refuted l member))

theorem none_iff (propagates : Propagates f t g next conflict) (coherent : t.Coherent f) :
    conflict = none ↔ f.UnitConsistent t.Holds := by
  cases conflict with
  | none => exact iff_of_true rfl (propagates.consistent coherent)
  | some place => exact iff_of_false (by simp) (propagates.not_consistent coherent)

end Propagates

/-- What propagation has to do with formula and trail: without a conflict the trail is the unit
closure, and a conflict is a clause with only false literals. Old steps stay in front of the new
ones, and clauses change at most the order of their literals. -/
structure Saturates (f : Formula) (t : Trail) (g : Formula) (next : Trail)
    (conflict : Option Nat) : Prop where
  none_iff : conflict = none ↔ f.UnitConsistent t.Holds
  holds_iff : conflict = none → ∀ l, next.Holds l ↔ f.UnitClosure t.Holds l
  refuted : ∀ {place : Nat}, conflict = some place → ∃ c, g.clauses[place]? = some c ∧
    c.deleted = false ∧ ∀ l ∈ c.literals, next.values.literalValue? l = some false
  isPrefix : t.steps.toList <+: next.steps.toList
  same : f.SameClauses g

theorem Propagates.saturates {f g : Formula} {t next : Trail} {conflict : Option Nat}
    (propagates : Propagates f t g next conflict) (coherent : t.Coherent f) :
    Saturates f t g next conflict where
  none_iff := propagates.none_iff coherent
  holds_iff := by
    rintro rfl
    exact propagates.holds_iff coherent
  refuted := by
    intro place conflict_eq
    obtain ⟨ls, found, refuted⟩ := propagates.refuted conflict_eq
    obtain ⟨c, at_place, rfl⟩ := Formula.literalsAt_eq_some.1 found
    exact ⟨c, at_place, propagates.coherent.wellFormed.present at_place, fun l member =>
      propagates.coherent.valid.literalValue?_eq_false.2 (refuted l member)⟩
  isPrefix := propagates.grows.isPrefix
  same := propagates.same

/-- Two propagations agree whether there is a conflict and, without one, on the value of every
variable. -/
structure SameOutcome (next : Trail) (conflict : Option Nat) (other : Trail)
    (otherConflict : Option Nat) : Prop where
  none_iff : conflict = none ↔ otherConflict = none
  value_eq : conflict = none → ∀ v, next.values.value? v = other.values.value? v

namespace Propagates

variable {f₁ f₂ g₁ g₂ : Formula} {t₁ t₂ next₁ next₂ : Trail} {conflict₁ conflict₂ : Option Nat}

/-- On the same clauses and literals propagations have the same outcome. -/
theorem sameOutcome (first : Propagates f₁ t₁ g₁ next₁ conflict₁)
    (second : Propagates f₂ t₂ g₂ next₂ conflict₂) (coherent₁ : t₁.Coherent f₁)
    (coherent₂ : t₂.Coherent f₂) (same : f₁.SameClauses f₂)
    (holds_iff : ∀ l, t₁.Holds l ↔ t₂.Holds l) :
    SameOutcome next₁ conflict₁ next₂ conflict₂ := by
  have wellFormed₁ := coherent₁.wellFormed
  have wellFormed₂ := coherent₂.wellFormed
  have forth : ∀ l, f₁.UnitClosure t₁.Holds l → f₂.UnitClosure t₂.Holds l := fun _ =>
    .of_same same wellFormed₂ fun l => (holds_iff l).1
  have back : ∀ l, f₂.UnitClosure t₂.Holds l → f₁.UnitClosure t₁.Holds l := fun _ =>
    .of_same same.symm wellFormed₁ fun l => (holds_iff l).2
  have none_iff : conflict₁ = none ↔ conflict₂ = none := by
    rw [first.none_iff coherent₁, second.none_iff coherent₂]
    exact ⟨.of_same same wellFormed₁ back, .of_same same.symm wellFormed₂ forth⟩
  refine ⟨none_iff, fun no_conflict => ?_⟩
  have no_conflict₂ := none_iff.1 no_conflict
  subst no_conflict no_conflict₂
  refine first.coherent.valid.value?_eq_of_holds_iff second.coherent.valid.toRecorded fun l => ?_
  rw [first.holds_iff coherent₁, second.holds_iff coherent₂]
  exact ⟨forth l, back l⟩

end Propagates

end ClauseLearning
