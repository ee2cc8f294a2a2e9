import ClauseLearning.Propagation.Scan
import ClauseLearning.Proofs.Coherence
import Mathlib.Data.List.Perm.Subperm

/-!
# Scanning propagates

Main statement: from a coherent state, scanning does what propagation may do, whenever the current
level is closed if no step waits.

A pass that assigns nothing has seen every clause under one and the same trail, and found none of
them false and none with a single free literal. A pass that assigns something uses up free
variables, so passes come to an end.
-/

namespace ClauseLearning

namespace ClauseStatus

theorem exists_true_of_satisfied {values : Assignment} (ls : List Literal) :
    ∀ free last, ofFrom values free last ls = .satisfied →
      ∃ l ∈ ls, values.literalValue? l = some true := by
  induction ls with
  | nil =>
    intro free last status
    unfold ofFrom at status
    split at status <;> cases status
  | cons q rest ih =>
    intro free last status
    unfold ofFrom at status
    split at status
    next value => exact ⟨q, List.mem_cons_self .., value⟩
    next =>
      obtain ⟨l, member, value⟩ := ih _ _ status
      exact ⟨l, List.mem_cons_of_mem _ member, value⟩
    next =>
      obtain ⟨l, member, value⟩ := ih _ _ status
      exact ⟨l, List.mem_cons_of_mem _ member, value⟩

theorem all_false_of_falsified {values : Assignment} (ls : List Literal) :
    ∀ free last, ofFrom values free last ls = .falsified →
      free = 0 ∧ ∀ l ∈ ls, values.literalValue? l = some false := by
  induction ls with
  | nil =>
    intro free last status
    unfold ofFrom at status
    split at status
    next => simp
    all_goals cases status
  | cons q rest ih =>
    intro free last status
    unfold ofFrom at status
    split at status
    next => cases status
    next value =>
      obtain ⟨none_free, others⟩ := ih _ _ status
      refine ⟨none_free, fun l member => ?_⟩
      rcases List.mem_cons.1 member with rfl | later
      · exact value
      · exact others l later
    -- A literal without a value has been counted, and the count never gets back to zero.
    next =>
      have impossible := (ih _ _ status).1
      omega

/-- A unit clause has one literal without a value, and its other literals are false. -/
theorem of_unit {values : Assignment} {l : Literal} (ls : List Literal) :
    ∀ free last, ofFrom values free last ls = .unit l →
      free = 1 ∧ last = some l ∧ (∀ q ∈ ls, values.literalValue? q = some false) ∨
      free = 0 ∧ l ∈ ls ∧ values.literalValue? l = none ∧
        ∀ q ∈ ls, q ≠ l → values.literalValue? q = some false := by
  -- The free literal is one met before, kept in `last`, or one of those still to come.
  induction ls with
  | nil =>
    intro free last status
    unfold ofFrom at status
    split at status
    next => cases status
    next => cases status; simp
    next => cases status
  | cons q rest ih =>
    intro free last status
    unfold ofFrom at status
    split at status
    next => cases status
    next value =>
      rcases ih _ _ status with ⟨one, same, others⟩ | ⟨zero, member, open_l, others⟩
      · exact .inl ⟨one, same, List.forall_mem_cons.2 ⟨value, others⟩⟩
      · refine .inr ⟨zero, List.mem_cons_of_mem _ member, open_l, ?_⟩
        exact List.forall_mem_cons.2 ⟨fun _ => value, others⟩
    next value =>
      rcases ih _ _ status with ⟨one, same, others⟩ | ⟨zero, _⟩
      · cases same
        refine .inr ⟨by omega, List.mem_cons_self .., value, ?_⟩
        exact List.forall_mem_cons.2 ⟨fun different => absurd rfl different,
          fun r member _ => others r member⟩
      · omega

/-- An unresolved clause has at least two literals without a value. -/
theorem two_le_of_unresolved {values : Assignment} (ls : List Literal) :
    ∀ free last, (0 < free → last.isSome) → ofFrom values free last ls = .unresolved →
      2 ≤ free + (ls.filter fun q => (values.literalValue? q).isNone).length := by
  induction ls with
  | nil =>
    intro free last known status
    unfold ofFrom at status
    split at status
    next => cases status
    next => cases status
    -- One free literal would have been remembered, and there is not none.
    next no_zero no_one =>
      match free with
      | 0 => exact absurd rfl no_zero
      | 1 =>
        obtain ⟨l, same⟩ := Option.isSome_iff_exists.1 (known Nat.one_pos)
        exact absurd same (no_one l rfl)
      | n + 2 => simp
  | cons q rest ih =>
    intro free last known status
    unfold ofFrom at status
    split at status
    next => cases status
    next value =>
      have bound := ih _ _ known status
      simpa [List.filter_cons, value] using bound
    next value =>
      have bound := ih _ _ (fun _ => rfl) status
      simp only [List.filter_cons, value, Option.isNone_none, if_true, List.length_cons]
      omega

end ClauseStatus

namespace Scan

/-- A clause of which the current values ask nothing: one of its literals is true, or two are
free. -/
def Settled (values : Assignment) (c : Clause) : Prop :=
  ClauseStatus.of values c = .satisfied ∨ ClauseStatus.of values c = .unresolved

/-- Under a trail that settles all clauses the current level is closed. -/
theorem closedAt_of_settled {t : Trail} {f : Formula} (coherent : t.Coherent f)
    (settled : ∀ {place : Nat} {c : Clause}, f.clauses[place]? = some c → Settled t.values c) :
    t.ClosedAt f t.level := by
  have recorded := coherent.valid.toRecorded
  intro place ls found l member others
  obtain ⟨c, at_place, rfl⟩ := Formula.literalsAt_eq_some.1 found
  rcases settled at_place with satisfied | unresolved
  -- The true literal is `l` itself, since all the others are false.
  · obtain ⟨q, q_mem, value⟩ := ClauseStatus.exists_true_of_satisfied _ _ _ satisfied
    have true_q := recorded.literalValue?_eq_true.1 value
    by_cases same : q = l
    · obtain ⟨i, s, at_i, rfl⟩ := true_q
      exact ⟨i, s, at_i, same, coherent.valid.level_le at_i⟩
    · exact absurd (others q q_mem same).holds (recorded.not_holds_neg true_q)
  · -- All free literals would have to be `l`, but there are two different ones.
    have two := ClauseStatus.two_le_of_unresolved _ _ _ (by simp) unresolved
    have included : (c.literals.filter fun q => (t.values.literalValue? q).isNone) ⊆ [l] := by
      intro q q_mem
      obtain ⟨in_clause, free⟩ := List.mem_filter.1 q_mem
      by_contra different
      have refuted := (others q in_clause (by simpa using different)).holds
      rw [recorded.literalValue?_eq_false.2 refuted] at free
      simp at free
    have nodup : c.literals.Nodup := List.Nodup.of_map _ (coherent.wellFormed.distinct found)
    have one := (List.subperm_of_subset (nodup.filter _) included).length_le
    simp only [List.length_singleton] at one
    omega

/-- What one pass over some clauses can do: nothing is assigned only if they are all settled. -/
structure Passed (f : Formula) (clauses : List Clause) (s next : Scan) (conflict : Option Nat) :
    Prop where
  grows : s.trail.Extends next.trail
  coherent : next.trail.Coherent f
  count : next.trail.size + s.count = s.trail.size + next.count
  refuted : ∀ {place : Nat}, conflict = some place →
    ∃ ls, f.literalsAt place = some ls ∧ next.trail.Refutes ls
  unchanged : conflict = none → next.count = s.count →
    next = s ∧ ∀ c ∈ clauses, Settled s.trail.values c

namespace Passed

variable {f : Formula} {c : Clause} {rest : List Clause} {s next : Scan} {conflict : Option Nat}

/-- A clause of which nothing is asked leaves the pass to the clauses after it. -/
theorem skip (passed : Passed f rest s next conflict) (settled : Settled s.trail.values c) :
    Passed f (c :: rest) s next conflict :=
  { passed with
    unchanged := fun no_conflict same => by
      obtain ⟨equal, others⟩ := passed.unchanged no_conflict same
      exact ⟨equal, List.forall_mem_cons.2 ⟨settled, others⟩⟩ }

/-- A clause that forces a literal makes the pass one that assigns something. -/
theorem force {l : Literal} {reason : Reason}
    (passed : Passed f rest ⟨s.trail.pushed l reason, s.count + 1⟩ next conflict) :
    Passed f (c :: rest) s next conflict := by
  have size := passed.grows.size_le
  have count := passed.count
  simp only [Trail.size_pushed] at size count
  refine ⟨(Trail.Extends.pushed ..).trans passed.grows, passed.coherent, by omega,
    passed.refuted, ?_⟩
  intro _ same
  omega

end Passed

theorem pass_ok {f : Formula} (clauses : List Clause) :
    ∀ (place : Nat) (s : Scan), s.trail.Coherent f →
      (∀ (j : Nat) (c : Clause), clauses[j]? = some c → f.clauses[place + j]? = some c) →
      ∃ next conflict, pass clauses place s = .ok (next, conflict) ∧
        Passed f clauses s next conflict := by
  induction clauses with
  | nil =>
    intro place s coherent _
    exact ⟨s, none, rfl, .refl _, coherent, rfl, by simp, by simp⟩
  | cons c rest ih =>
    intro place s coherent stored
    have recorded := coherent.valid.toRecorded
    have at_place : f.clauses[place]? = some c := by simpa using stored 0 c
    have found := Formula.literalsAt_of_clause at_place
    have stored_rest : ∀ (j : Nat) (d : Clause), rest[j]? = some d →
        f.clauses[place + 1 + j]? = some d := by
      intro j d at_j
      rw [Nat.add_assoc, Nat.add_comm 1 j]
      exact stored (j + 1) d (by simpa using at_j)
    -- No stored clause is passed over.
    have kept : (c.deleted || c.isEmpty) = false := by
      have nonempty : c.literals ≠ [] := fun empty =>
        coherent.nonempty (found.trans (congrArg some empty))
      simp [coherent.wellFormed.present at_place, Clause.isEmpty, nonempty]
    have go_on : Settled s.trail.values c →
        ∃ next conflict, pass rest (place + 1) s = .ok (next, conflict) ∧
          Passed f (c :: rest) s next conflict := by
      intro settled
      obtain ⟨next, conflict, ran, passed⟩ := ih (place + 1) s coherent stored_rest
      exact ⟨next, conflict, ran, passed.skip settled⟩
    unfold pass
    simp only [kept, Bool.false_eq_true, if_false]
    cases status : ClauseStatus.of s.trail.values c with
    | falsified =>
      obtain ⟨_, all_false⟩ := ClauseStatus.all_false_of_falsified _ _ _ status
      refine ⟨s, some place, rfl, .refl _, coherent, rfl, ?_, by simp⟩
      rintro p ⟨⟩
      exact ⟨c.literals, found, fun q member =>
        recorded.literalValue?_eq_false.1 (all_false q member)⟩
    | unit l =>
      rcases ClauseStatus.of_unit _ _ _ status with ⟨one, _⟩ | ⟨_, member, open_l, others⟩
      · omega
      · have free := recorded.literalValue?_eq_none.1 open_l
        have refuted : ∀ q ∈ c.literals, q ≠ l → s.trail.Holds (-q) := fun q q_mem different =>
          recorded.literalValue?_eq_false.1 (others q q_mem different)
        obtain ⟨pushed, coherent_pushed⟩ := coherent.force found member refuted free
        obtain ⟨next, conflict, ran, passed⟩ :=
          ih (place + 1) ⟨s.trail.pushed l (.clause place), s.count + 1⟩ coherent_pushed stored_rest
        exact ⟨next, conflict, by simp only [pushed]; exact ran, passed.force⟩
    | satisfied => exact go_on (.inl status)
    | unresolved => exact go_on (.inr status)

/-- Passes come to an end with what propagation asks for: each but the last leaves fewer variables
free. -/
theorem passes_ok {f : Formula} (fuel : Nat) :
    ∀ s : Scan, s.trail.Coherent f → f.numVars < s.trail.size + fuel →
      ∃ next conflict, passes f.clauses.toList fuel s = .ok (next, conflict) ∧
        Propagates f s.trail f next.trail conflict := by
  -- The trail cannot outgrow the variables, so the rounds left and the trail together suffice.
  induction fuel with
  | zero =>
    intro s coherent enough
    have bound := coherent.valid.size_le
    omega
  | succ fuel ih =>
    intro s coherent enough
    obtain ⟨next, conflict, ran, passed⟩ := pass_ok f.clauses.toList 0 s coherent (by simp)
    have after := passed.coherent
    have grows := passed.grows
    have count := passed.count
    have finished : next.finish.trail.Coherent f :=
      after.withHead after.valid.head_le (Nat.le_refl _)
    have finish_grows : s.trail.Extends next.finish.trail :=
      grows.trans ⟨fun at_i => at_i, fun at_i => .inl at_i, rfl⟩
    cases conflict with
    | some place =>
      refine ⟨next.finish, some place, by simp only [passes, ran], .refl f, finish_grows, finished,
        ?_, by simp, by simp⟩
      rintro p ⟨⟩
      exact passed.refuted rfl
    | none =>
      by_cases same : next.count = s.count
      · -- A pass that assigned nothing has found every clause settled.
        obtain ⟨rfl, settled⟩ := passed.unchanged rfl same
        refine ⟨next.finish, none, by simp only [passes, ran, if_true], .refl f, finish_grows,
          finished, by simp, fun _ => ?_, fun _ => rfl⟩
        refine closedAt_of_settled finished fun {place c} at_place => ?_
        exact settled c (Array.mem_toList_iff.2 (Array.mem_iff_getElem?.2 ⟨place, at_place⟩))
      · have size := grows.size_le
        obtain ⟨last, conflict, ran_rest, rest⟩ := ih next after (by omega)
        refine ⟨last, conflict, by simp only [passes, ran, if_neg same, ran_rest],
          rest.same, grows.trans rest.grows, rest.coherent, rest.refuted, rest.closed, rest.done⟩

/-- Scanning from a coherent state propagates, if the level is closed whenever no step waits. -/
theorem propagate_ok {f : Formula} {s : Scan} (coherent : s.trail.Coherent f)
    (closed : s.trail.head = s.trail.size → s.trail.ClosedAt f s.trail.level) :
    ∃ next conflict, propagate f.clauses.toList s = .ok (next, conflict) ∧
      Propagates f s.trail f next.trail conflict := by
  unfold propagate
  by_cases idle : s.trail.size ≤ s.trail.head
  · have done : s.trail.head = s.trail.size := Nat.le_antisymm coherent.valid.head_le idle
    rw [if_pos idle]
    exact ⟨s, none, rfl, .refl f, .refl _, coherent, by simp, fun _ => closed done, fun _ => done⟩
  · rw [if_neg idle]
    refine passes_ok _ s coherent ?_
    rw [coherent.valid.slots_size]
    omega

end Scan

end ClauseLearning
