import ClauseLearning.Proofs.Propagation.Propagator

/-!
# Propagation from any trail

A search propagates from coherent states only. What propagation does to the clauses and the watch
lists does not depend on that: a clause that is visited has its literals rearranged, and is listed
afterwards where it says, whatever the values are.

Main statements: a propagation that returns has rearranged clauses at most, and leaves them
registered. It returns whenever clauses and trail are over the same variables and the tables of the
trail agree with its steps, and then the trail has only grown.
-/

namespace ClauseLearning

/-- The clauses of `g` are those of `f`, with their literals rearranged. -/
structure Formula.Rearranges (f g : Formula) : Prop where
  same : f.SameClauses g
  plain : g.Plain

theorem Formula.Rearranges.trans {f g h : Formula} (first : f.Rearranges g)
    (second : g.Rearranges h) : f.Rearranges h :=
  ⟨first.same.trans second.same, second.plain⟩

theorem Formula.Plain.rearranges {f : Formula} (plain : f.Plain) : f.Rearranges f :=
  ⟨.refl f, plain⟩

theorem Formula.Rearranges.wellFormed {f g : Formula} (rearranges : f.Rearranges g)
    (wellFormed : f.WellFormed) : g.WellFormed :=
  rearranges.same.wellFormed wellFormed rearranges.plain.present

/-- Formula and trail are over the same variables, and each of them is in order. -/
structure Trail.Fits (t : Trail) (f : Formula) : Prop where
  wellFormed : f.WellFormed
  recorded : t.Recorded f.numVars

namespace Trail

theorem Fits.rearranged {t u : Trail} {f g : Formula} (fits : t.Fits f)
    (rearranges : f.Rearranges g) (recorded : u.Recorded f.numVars) : u.Fits g :=
  ⟨rearranges.wellFormed fits.wellFormed, rearranges.same.numVars_eq.symm ▸ recorded⟩

theorem Fits.withHead {t : Trail} {f : Formula} (fits : t.Fits f) (head : Nat) :
    ({ t with head := head }).Fits f :=
  ⟨fits.wellFormed, { fits.recorded with }⟩

end Trail

namespace WatchRun

section

variable {s next : WatchRun} {falseLit : Literal} {place : Nat} {rest kept : List Nat}

/-- A visit that returns has rearranged one clause, which stays on the list unless it leaves. -/
theorem Listed.visit {v : Visit}
    (listed : Listed falseLit (place :: rest) kept s.watches s.formula) (plain : s.formula.Plain)
    (ran : s.visit falseLit place = .ok (next, v)) :
    s.formula.Rearranges next.formula ∧
      Listed falseLit rest (if v = .leaves then kept else kept ++ [place]) next.watches
        next.formula := by
  obtain ⟨c, other, tail, at_place, shape, different, _⟩ := listed.next plain
  have present := plain.present at_place
  rw [visit_eq at_place present shape different] at ran
  have perm := (perm_of_shape shape).1
  -- What holds in the three cases in which the clause goes on watching the same literals.
  have stays : s.formula.Rearranges
        (s.formula.withClause place (c.reorder (other :: falseLit :: tail))) ∧
      Listed falseLit rest (kept ++ [place]) s.watches
        (s.formula.withClause place (c.reorder (other :: falseLit :: tail))) :=
    ⟨⟨.withClause at_place perm, plain.withClause at_place perm present⟩,
      listed.stays rfl (watchedAt_keep at_place shape)⟩
  by_cases true_other : s.trail.values.literalValue? other = some true
  · rw [if_pos true_other] at ran
    cases ran
    exact stays
  rw [if_neg true_other] at ran
  cases split : splitAtWatchable s.trail.values tail with
  | some parts =>
    obtain ⟨before, found, after⟩ := parts
    obtain ⟨rfl, _⟩ := of_splitAtWatchable tail split
    simp only [split] at ran
    obtain ⟨watches, modified, moved⟩ := map_eq_ok.1 ran
    cases moved
    obtain ⟨_, modified', size_eq, pushed⟩ :=
      Watches.modifyList_push_ok (Watches.index_lt_of_modifyList modified) place
    cases modified.symm.trans modified'
    have exchanges := exchanges_of_shape at_place shape
    have found_ne : found ≠ falseLit := by
      rintro rfl
      have distinct := plain.distinct (Formula.literalsAt_of_clause at_place)
      have nodup := (perm.nodup_iff.1 (List.Nodup.of_map _ distinct)).of_cons
      simp at nodup
    exact ⟨⟨exchanges.same, plain.withClause at_place (perm_of_exchange shape) present⟩,
      listed.moves rfl exchanges.before exchanges.after exchanges.elsewhere different found_ne
        size_eq pushed⟩
  | none =>
    simp only [split] at ran
    by_cases false_other : s.trail.values.literalValue? other = some false
    · rw [if_pos false_other] at ran
      cases ran
      exact stays
    · rw [if_neg false_other] at ran
      obtain ⟨trail, _, moved⟩ := map_eq_ok.1 ran
      cases moved
      exact stays

/-- A visit returns: the literals of the clause have lists, and the one that is forced, a value to
get. -/
theorem visit_returns (listed : Listed falseLit (place :: rest) kept s.watches s.formula)
    (fits : s.trail.Fits s.formula) :
    ∃ next v, s.visit falseLit place = .ok (next, v) ∧ s.trail.Extends next.trail ∧
      next.trail.Fits next.formula := by
  have wellFormed := fits.wellFormed
  have recorded := fits.recorded
  obtain ⟨next, v, ran, grows, recorded_next⟩ : ∃ next v, s.visit falseLit place = .ok (next, v) ∧
      s.trail.Extends next.trail ∧ next.trail.Recorded s.formula.numVars := by
    obtain ⟨c, other, tail, at_place, shape, different, _⟩ := listed.next wellFormed.plain
    have found := Formula.literalsAt_of_clause at_place
    have perm := (perm_of_shape shape).1
    rw [visit_eq at_place (wellFormed.present at_place) shape different]
    by_cases true_other : s.trail.values.literalValue? other = some true
    · rw [if_pos true_other]
      exact ⟨_, _, rfl, .refl _, recorded⟩
    rw [if_neg true_other]
    cases split : splitAtWatchable s.trail.values tail with
    | some parts =>
      obtain ⟨before, instead, after⟩ := parts
      obtain ⟨rfl, _⟩ := of_splitAtWatchable tail split
      have index_lt : instead.index < s.watches.lists.size := by
        rw [listed.size_eq]
        exact Literal.index_lt (wellFormed.declared found instead (perm.mem_iff.2 (by simp)))
      obtain ⟨watches, modified, _⟩ := Watches.modifyList_push_ok index_lt place
      simp only [modified, map_ok]
      exact ⟨_, _, rfl, .refl _, recorded⟩
    | none =>
      by_cases false_other : s.trail.values.literalValue? other = some false
      · simp only [if_pos false_other]
        exact ⟨_, _, rfl, .refl _, recorded⟩
      · have free := eq_none_of_neither true_other false_other
        have member : other ∈ c.literals := perm.mem_iff.2 (List.mem_cons_self ..)
        simp only [if_neg false_other]
        rw [recorded.push_eq (wellFormed.declared found other member), map_ok]
        exact ⟨_, _, rfl, .pushed .., recorded.pushed (wellFormed.positive found other member)
          (wellFormed.declared found other member) (recorded.literalValue?_eq_none.1 free) _⟩
  exact ⟨next, v, ran, grows,
    fits.rearranged (listed.visit wellFormed.plain ran).1 recorded_next⟩

end

theorem Listed.visitAll {falseLit : Literal} (places : List Nat) :
    ∀ {kept all : Array Nat} {s next : WatchRun} {conflict : Option Nat},
      Listed falseLit places kept.toList s.watches s.formula → s.formula.Plain →
      WatchRun.visitAll falseLit places kept s = .ok (next, all, conflict) →
      s.formula.Rearranges next.formula ∧
        ∃ pending stays, Listed falseLit pending stays next.watches next.formula ∧
          all.toList = stays ++ pending := by
  induction places with
  | nil =>
    intro kept all s next conflict listed plain ran
    cases ran
    exact ⟨plain.rearranges, [], kept.toList, listed, by simp⟩
  | cons place rest ih =>
    intro kept all s next conflict listed plain ran
    unfold WatchRun.visitAll at ran
    split at ran
    next => cases ran
    next mid visited =>
      obtain ⟨first, after⟩ := listed.visit plain visited
      obtain ⟨others, stands⟩ := ih after first.plain ran
      exact ⟨first.trans others, stands⟩
    next mid visited =>
      obtain ⟨first, after⟩ := listed.visit plain visited
      obtain ⟨others, stands⟩ := ih (by simpa using after) first.plain ran
      exact ⟨first.trans others, stands⟩
    next mid visited =>
      obtain ⟨first, after⟩ := listed.visit plain visited
      cases ran
      exact ⟨first, rest, kept.toList ++ [place], after, by simp⟩

theorem visitAll_returns {falseLit : Literal} (places : List Nat) :
    ∀ (kept : Array Nat) (s : WatchRun),
      Listed falseLit places kept.toList s.watches s.formula → s.trail.Fits s.formula →
      ∃ next all conflict, visitAll falseLit places kept s = .ok (next, all, conflict) ∧
        s.trail.Extends next.trail ∧ next.trail.Fits next.formula := by
  induction places with
  | nil => exact fun kept s _ fits => ⟨s, kept, none, rfl, .refl _, fits⟩
  | cons place rest ih =>
    intro kept s listed fits
    obtain ⟨mid, v, ran, grows, fits_mid⟩ := visit_returns listed fits
    obtain ⟨_, after⟩ := listed.visit fits.wellFormed.plain ran
    cases v with
    | leaves =>
      obtain ⟨next, all, conflict, ran_rest, more, fits_next⟩ := ih kept mid after fits_mid
      exact ⟨next, all, conflict, by simp only [visitAll, ran, ran_rest], grows.trans more,
        fits_next⟩
    | stays =>
      obtain ⟨next, all, conflict, ran_rest, more, fits_next⟩ :=
        ih (kept.push place) mid (by simpa using after) fits_mid
      exact ⟨next, all, conflict, by simp only [visitAll, ran, ran_rest], grows.trans more,
        fits_next⟩
    | conflicts =>
      exact ⟨mid, kept.push place ++ rest.toArray, some place, by simp only [visitAll, ran], grows,
        fits_mid⟩

section

variable {s next : WatchRun} {falseLit : Literal} {conflict : Option Nat}

theorem registers_of_propagateFalse (registers : s.watches.Registers s.formula)
    (plain : s.formula.Plain) (ran : s.propagateFalse falseLit = .ok (next, conflict)) :
    s.formula.Rearranges next.formula ∧ next.watches.Registers next.formula := by
  unfold propagateFalse at ran
  obtain ⟨places, read, ran⟩ := bind_eq_ok.1 ran
  obtain ⟨taken, took, ran⟩ := bind_eq_ok.1 ran
  obtain ⟨⟨mid, all, found⟩, visited, ran⟩ := bind_eq_ok.1 ran
  obtain ⟨put, wrote, ran⟩ := bind_eq_ok.1 ran
  cases ran
  have index_lt : falseLit.index < s.watches.lists.size :=
    (Array.getElem?_eq_some_iff.1 (lookup_eq_ok_iff.1 read)).1
  obtain ⟨_, read', places_eq⟩ := Watches.list_eq index_lt
  cases read.symm.trans read'
  obtain ⟨_, took', taken_size, taken_own, taken_others⟩ :=
    Watches.setList_ok index_lt Array.empty
  cases took.symm.trans took'
  have listed : Listed falseLit places.toList (Array.empty : Array Nat).toList taken s.formula := by
    rw [places_eq]
    exact .start registers taken_size taken_own taken_others
  obtain ⟨rearranges, pending, stays, stands, all_eq⟩ :=
    Listed.visitAll places.toList (s := { s with watches := taken }) listed plain visited
  have index_mid : falseLit.index < mid.watches.lists.size := by
    rw [stands.size_eq, rearranges.same.numVars_eq, ← registers.size_eq]
    exact index_lt
  obtain ⟨_, wrote', put_size, put_own, put_others⟩ := Watches.setList_ok index_mid all
  cases wrote.symm.trans wrote'
  exact ⟨rearranges, stands.finish put_size (put_own.trans all_eq) put_others⟩

theorem propagateFalse_returns (registers : s.watches.Registers s.formula)
    (fits : s.trail.Fits s.formula) (declared : falseLit.var ≤ s.formula.numVars) :
    ∃ next conflict, s.propagateFalse falseLit = .ok (next, conflict) ∧
      s.trail.Extends next.trail ∧ next.trail.Fits next.formula := by
  have index_lt := registers.index_lt declared
  obtain ⟨places, read, places_eq⟩ := Watches.list_eq index_lt
  obtain ⟨taken, took, taken_size, taken_own, taken_others⟩ :=
    Watches.setList_ok index_lt Array.empty
  have listed : Listed falseLit places.toList (Array.empty : Array Nat).toList taken s.formula := by
    rw [places_eq]
    exact .start registers taken_size taken_own taken_others
  obtain ⟨mid, all, conflict, visited, grows, fits_mid⟩ :=
    visitAll_returns places.toList Array.empty { s with watches := taken } listed fits
  obtain ⟨rearranges, _, _, stands, _⟩ :=
    Listed.visitAll places.toList (s := { s with watches := taken }) listed fits.wellFormed.plain
      visited
  have index_mid : falseLit.index < mid.watches.lists.size := by
    rw [stands.size_eq, rearranges.same.numVars_eq]
    exact Literal.index_lt declared
  obtain ⟨put, wrote, _⟩ := Watches.setList_ok index_mid all
  refine ⟨{ mid with watches := put }, conflict, ?_, grows, fits_mid⟩
  unfold propagateFalse
  rw [read, ok_bind, took, ok_bind, visited, ok_bind]
  simp only [wrote, ok_bind, pure_eq_ok]

end

theorem registers_of_propagateFor (fuel : Nat) :
    ∀ {s next : WatchRun} {conflict : Option Nat}, s.watches.Registers s.formula →
      s.formula.Plain → propagateFor fuel s = .ok (next, conflict) →
      s.formula.Rearranges next.formula ∧ next.watches.Registers next.formula := by
  induction fuel with
  | zero =>
    intro s next conflict registers plain ran
    cases ran
    exact ⟨plain.rearranges, registers⟩
  | succ fuel ih =>
    intro s next conflict registers plain ran
    unfold propagateFor at ran
    split at ran
    next =>
      cases ran
      exact ⟨plain.rearranges, registers⟩
    next =>
      -- A step is propagated when the head has passed it.
      let start : WatchRun := { s with trail := { s.trail with head := s.trail.head + 1 } }
      split at ran
      next => cases ran
      next propagated =>
        cases ran
        exact registers_of_propagateFalse (s := start) registers plain propagated
      next propagated =>
        obtain ⟨first, registers_mid⟩ :=
          registers_of_propagateFalse (s := start) registers plain propagated
        obtain ⟨others, registers_next⟩ := ih registers_mid first.plain ran
        exact ⟨first.trans others, registers_next⟩

theorem propagateFor_returns (fuel : Nat) :
    ∀ s : WatchRun, s.watches.Registers s.formula → s.trail.Fits s.formula →
      ∃ next conflict, propagateFor fuel s = .ok (next, conflict) ∧
        s.trail.Extends next.trail ∧ next.trail.Fits next.formula := by
  induction fuel with
  | zero => exact fun s _ fits => ⟨s, none, rfl, .refl _, fits⟩
  | succ fuel ih =>
    intro s registers fits
    unfold propagateFor
    cases at_head : s.trail.steps[s.trail.head]? with
    | none => exact ⟨s, none, rfl, .refl _, fits⟩
    | some step =>
      let start : WatchRun := { s with trail := { s.trail with head := s.trail.head + 1 } }
      have declared : (-step.literal).var ≤ s.formula.numVars := fits.recorded.declared at_head
      obtain ⟨mid, conflict, ran, grows, fits_mid⟩ :=
        propagateFalse_returns (s := start) registers (fits.withHead _) declared
      have grows_mid : s.trail.Extends mid.trail := grows.withHead s.trail.head mid.trail.head
      obtain ⟨_, registers_mid⟩ :=
        registers_of_propagateFalse (s := start) registers fits.wellFormed.plain ran
      simp only [start] at ran
      simp only [ran]
      cases conflict with
      | some place => exact ⟨mid, some place, rfl, grows_mid, fits_mid⟩
      | none =>
        obtain ⟨next, conflict, ran_rest, more, fits_next⟩ := ih mid registers_mid fits_mid
        exact ⟨next, conflict, ran_rest, grows_mid.trans more, fits_next⟩

end WatchRun

namespace Scan

/-- The clauses are over the variables `1, …, n`. -/
def Over (n : Nat) (clauses : List Clause) : Prop :=
  ∀ c ∈ clauses, ∀ l ∈ c.literals, 0 < l.var ∧ l.var ≤ n

variable {n : Nat}

theorem pass_returns (clauses : List Clause) :
    ∀ (place : Nat) (s : Scan), Over n clauses → s.trail.Recorded n →
      ∃ next conflict, pass clauses place s = .ok (next, conflict) ∧
        s.trail.Extends next.trail ∧ next.trail.Recorded n := by
  induction clauses with
  | nil => exact fun place s _ recorded => ⟨s, none, rfl, .refl _, recorded⟩
  | cons c rest ih =>
    intro place s within recorded
    obtain ⟨inside, within_rest⟩ := List.forall_mem_cons.1 within
    unfold pass
    split
    · exact ih (place + 1) s within_rest recorded
    cases status : ClauseStatus.of s.trail.values c with
    | falsified => exact ⟨s, some place, rfl, .refl _, recorded⟩
    | satisfied => exact ih (place + 1) s within_rest recorded
    | unresolved => exact ih (place + 1) s within_rest recorded
    | unit l =>
      rcases ClauseStatus.of_unit _ _ _ status with ⟨one, _⟩ | ⟨_, member, open_l, _⟩
      · omega
      · obtain ⟨positive, declared⟩ := inside l member
        have free := recorded.literalValue?_eq_none.1 open_l
        simp only [recorded.push_eq declared]
        obtain ⟨next, conflict, ran, grows, recorded_next⟩ :=
          ih (place + 1) ⟨s.trail.pushed l (.clause place), s.count + 1⟩ within_rest
            (recorded.pushed positive declared free _)
        exact ⟨next, conflict, ran, (Trail.Extends.pushed ..).trans grows, recorded_next⟩

theorem passes_returns {clauses : List Clause} (within : Over n clauses) (fuel : Nat) :
    ∀ s : Scan, s.trail.Recorded n →
      ∃ next conflict, passes clauses fuel s = .ok (next, conflict) ∧
        s.trail.Extends next.trail ∧ next.trail.Recorded n := by
  induction fuel with
  | zero =>
    exact fun s recorded => ⟨s.finish, none, rfl, (Trail.Extends.refl s.trail).withHead _ _,
      { recorded with }⟩
  | succ fuel ih =>
    intro s recorded
    obtain ⟨next, conflict, ran, grows, recorded_next⟩ := pass_returns clauses 0 s within recorded
    have finished : next.finish.trail.Recorded n := { recorded_next with }
    have grows_finish : s.trail.Extends next.finish.trail := grows.withHead s.trail.head _
    unfold passes
    simp only [ran]
    cases conflict with
    | some place => exact ⟨next.finish, some place, rfl, grows_finish, finished⟩
    | none =>
      simp only
      split
      · exact ⟨next.finish, none, rfl, grows_finish, finished⟩
      · obtain ⟨last, conflict, ran_rest, more, recorded_last⟩ := ih next recorded_next
        exact ⟨last, conflict, ran_rest, grows.trans more, recorded_last⟩

theorem propagate_returns {clauses : List Clause} (within : Over n clauses) {s : Scan}
    (recorded : s.trail.Recorded n) :
    ∃ next conflict, propagate clauses s = .ok (next, conflict) ∧
      s.trail.Extends next.trail ∧ next.trail.Recorded n := by
  unfold propagate
  split
  · exact ⟨s, none, rfl, .refl _, recorded⟩
  · exact passes_returns within _ s recorded

end Scan

namespace Propagator

variable {p : Propagator} {t : Trail} {f : Formula}

/-- A propagation that returns has rearranged clauses at most, and leaves them registered. -/
theorem registers_of_propagate {q : Propagator} {u : Trail} {g : Formula} {conflict : Option Nat}
    (registers : ∀ w ∈ p.watches?, w.Registers f) (plain : f.Plain)
    (ran : p.propagate t f = .ok (q, u, g, conflict)) :
    f.Rearranges g ∧ q.kind = p.kind ∧ ∀ w ∈ q.watches?, w.Registers g := by
  cases p with
  | watched w n =>
    obtain ⟨⟨s, found⟩, propagated, ran⟩ := bind_eq_ok.1 ran
    cases ran
    obtain ⟨rearranges, registers⟩ := WatchRun.registers_of_propagateFor _
      (s := ⟨w, t, f, n⟩) (registers w rfl) plain propagated
    exact ⟨rearranges, rfl, by rintro _ ⟨⟩; exact registers⟩
  | scan n =>
    obtain ⟨⟨s, found⟩, _, ran⟩ := bind_eq_ok.1 ran
    cases ran
    exact ⟨plain.rearranges, rfl, by rintro _ ⟨⟩⟩

/-- Propagation returns, and the trail has only grown. -/
theorem propagate_returns (registers : ∀ w ∈ p.watches?, w.Registers f) (fits : t.Fits f) :
    ∃ q u g conflict, p.propagate t f = .ok (q, u, g, conflict) ∧ t.Extends u ∧ u.Fits g := by
  cases p with
  | watched w n =>
    obtain ⟨s, conflict, ran, grows, fits_s⟩ :=
      WatchRun.propagateFor_returns (t.size - t.head + t.values.slots.size) ⟨w, t, f, n⟩
        (registers w rfl) fits
    refine ⟨.watched s.watches s.count, s.trail, s.formula, conflict, ?_, grows, fits_s⟩
    simp only [propagate, WatchRun.propagate, ran, ok_bind, pure_eq_ok]
  | scan n =>
    have within : Scan.Over f.numVars f.clauses.toList := by
      intro c member l l_mem
      obtain ⟨place, at_place⟩ := Array.mem_iff_getElem?.1 (Array.mem_toList_iff.1 member)
      have found := Formula.literalsAt_of_clause at_place
      exact ⟨fits.wellFormed.positive found l l_mem, fits.wellFormed.declared found l l_mem⟩
    obtain ⟨s, conflict, ran, grows, recorded⟩ :=
      Scan.propagate_returns within (s := ⟨t, n⟩) fits.recorded
    refine ⟨.scan s.count, s.trail, f, conflict, ?_, grows, fits.wellFormed, recorded⟩
    simp only [propagate, ran, ok_bind, pure_eq_ok]

end Propagator

end ClauseLearning
