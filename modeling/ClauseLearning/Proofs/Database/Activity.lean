import ClauseLearning.Database
import ClauseLearning.Proofs.Propagation.Propagator

/-!
# Activities of clauses

Raising and scaling the activities of learnt clauses leaves all literals where they are, so that
whatever is known about a formula stays known.

Main statements: taking note of the clauses of an analysis succeeds when their places are inside the
formula, and both this and taking note of a conflict only rescore the formula.
-/

namespace ClauseLearning

namespace Formula

/-- The clauses have the same literals in the same order, but perhaps other activities. -/
structure Rescored (f g : Formula) : Prop where
  numVars_eq : g.numVars = f.numVars
  inputCount_eq : g.inputCount = f.inputCount
  size_eq : g.size = f.size
  literalsAt_eq : ∀ place, g.literalsAt place = f.literalsAt place
  deleted_eq : ∀ {place : Nat} {c : Clause}, g.clauses[place]? = some c →
    ∃ d, f.clauses[place]? = some d ∧ c.deleted = d.deleted

namespace Rescored

theorem refl (f : Formula) : f.Rescored f :=
  ⟨rfl, rfl, rfl, fun _ => rfl, fun {_ c} found => ⟨c, found, rfl⟩⟩

theorem trans {f g h : Formula} (first : f.Rescored g) (second : g.Rescored h) : f.Rescored h where
  numVars_eq := second.numVars_eq.trans first.numVars_eq
  inputCount_eq := second.inputCount_eq.trans first.inputCount_eq
  size_eq := second.size_eq.trans first.size_eq
  literalsAt_eq place := (second.literalsAt_eq place).trans (first.literalsAt_eq place)
  deleted_eq found := by
    obtain ⟨d, at_g, same⟩ := second.deleted_eq found
    obtain ⟨e, at_f, more⟩ := first.deleted_eq at_g
    exact ⟨e, at_f, same.trans more⟩

variable {f g : Formula}

theorem same (rescored : f.Rescored g) : f.SameClauses g :=
  .of_literalsAt_eq rescored.numVars_eq rescored.inputCount_eq rescored.size_eq
    rescored.literalsAt_eq

theorem present (rescored : f.Rescored g)
    (present : ∀ {place : Nat} {c : Clause}, f.clauses[place]? = some c → c.deleted = false)
    {place : Nat} {c : Clause} (found : g.clauses[place]? = some c) : c.deleted = false := by
  obtain ⟨d, at_f, same⟩ := rescored.deleted_eq found
  exact same.trans (present at_f)

theorem plain (rescored : f.Rescored g) (plain : f.Plain) : g.Plain :=
  rescored.same.plain plain (rescored.present plain.present)

theorem wellFormed (rescored : f.Rescored g) (wellFormed : f.WellFormed) : g.WellFormed :=
  rescored.same.wellFormed wellFormed (rescored.present wellFormed.present)

theorem coherent (rescored : f.Rescored g) {t : Trail} (coherent : t.Coherent f) : t.Coherent g :=
  coherent.of_same rescored.same (rescored.wellFormed coherent.wellFormed)

theorem watchedAt_eq (rescored : f.Rescored g) (place : Nat) :
    g.watchedAt place = f.watchedAt place :=
  watchedAt_congr (rescored.literalsAt_eq place)

theorem registers (rescored : f.Rescored g) {w : Watches} (registers : w.Registers f) :
    w.Registers g where
  size_eq := by
    rw [rescored.numVars_eq]
    exact registers.size_eq
  count_eq l place := by
    rw [rescored.watchedAt_eq]
    exact registers.count_eq l place

theorem guards (rescored : f.Rescored g) {t : Trail} {bound : Nat} (guards : t.Guards f bound) :
    t.Guards g bound := by
  intro place x y pair
  have pair_f : f.WatchesPair place x y := by
    unfold WatchesPair
    rw [← rescored.watchedAt_eq]
    exact pair
  exact guards pair_f

theorem ready (rescored : f.Rescored g) {t : Trail} {p : Propagator} (ready : p.Ready f t) :
    p.Ready g t := by
  cases p with
  | watched w n => exact ⟨rescored.registers ready.1, rescored.guards ready.2⟩
  | scan n => exact fun done => (ready done).of_same rescored.same

theorem interrupted (rescored : f.Rescored g) {t : Trail} {p : Propagator}
    (interrupted : p.Interrupted f t) : p.Interrupted g t := by
  cases p with
  | watched w n => exact ⟨rescored.registers interrupted.1, rescored.guards interrupted.2⟩
  | scan n => trivial

/-- A clause is replaced by one with the same literals. -/
theorem withClause {place : Nat} {c d : Clause} (at_place : f.clauses[place]? = some c)
    (literals_eq : d.literals = c.literals) (deleted_eq : d.deleted = c.deleted) :
    f.Rescored (f.withClause place d) where
  numVars_eq := rfl
  inputCount_eq := rfl
  size_eq := size_withClause f place d
  literalsAt_eq p := by
    have found := literalsAt_of_clause at_place
    rw [literalsAt_withClause (lt_size_of_literalsAt found)]
    split
    next here => rw [here, found, literals_eq]
    next => rfl
  deleted_eq {p e} at_p := by
    have inside := lt_size_of_literalsAt (literalsAt_of_clause at_place)
    rw [getElem?_withClause inside] at at_p
    split at at_p
    next here =>
      cases at_p
      exact ⟨c, by rw [here, at_place], deleted_eq⟩
    next => exact ⟨e, at_p, rfl⟩

/-- Every clause is replaced by one with the same literals. -/
theorem mapIdx (change : Nat → Clause → Clause)
    (keeps : ∀ i c, (change i c).literals = c.literals ∧ (change i c).deleted = c.deleted) :
    f.Rescored { f with clauses := f.clauses.mapIdx change } := by
  refine ⟨rfl, rfl, by simp [size], fun place => ?_, fun {place c} found => ?_⟩
  · -- What the change does beyond the literals and the mark is not visible in `literalsAt`.
    simp only [literalsAt, Array.getElem?_mapIdx, Option.map_map]
    congr 1
    funext c
    exact (keeps place c).1
  · simp only [Array.getElem?_mapIdx, Option.map_eq_some_iff] at found
    obtain ⟨d, at_place, rfl⟩ := found
    exact ⟨d, at_place, (keeps place d).2⟩

end Rescored

end Formula

namespace Database

theorem rescored_of_bumpAll (increment : Float) (places : List Nat) :
    ∀ {f g : Formula}, bumpAll increment places f = .ok g → f.Rescored g := by
  induction places with
  | nil =>
    intro f g ran
    cases ran
    exact .refl f
  | cons place rest ih =>
    intro f g ran
    unfold bumpAll at ran
    by_cases input : place < f.inputCount
    · -- Input clauses have no activity.
      rw [if_pos input] at ran
      exact ih ran
    · rw [if_neg input] at ran
      obtain ⟨c, read, ran⟩ := bind_eq_ok.1 ran
      have found : f.clauses[place]? = some c := lookup_eq_ok_iff.1 read
      have inside := Formula.lt_size_of_literalsAt (Formula.literalsAt_of_clause found)
      rw [Formula.setClause_eq inside, ok_bind] at ran
      exact (Formula.Rescored.withClause found (d := c.bump increment) rfl rfl).trans (ih ran)

theorem bumpAll_ok (increment : Float) (places : List Nat) :
    ∀ f : Formula, (∀ place ∈ places, place < f.size) →
      ∃ g, bumpAll increment places f = .ok g := by
  induction places with
  | nil => exact fun f _ => ⟨f, rfl⟩
  | cons place rest ih =>
    intro f inside
    have here := inside place (List.mem_cons_self ..)
    have later : ∀ p ∈ rest, p < f.size := fun p member => inside p (List.mem_cons_of_mem _ member)
    unfold bumpAll
    by_cases input : place < f.inputCount
    · rw [if_pos input]
      exact ih f later
    · have read : f.clause place = .ok f.clauses[place] := lookup_eq_ok here
      rw [if_neg input, read, ok_bind, Formula.setClause_eq here, ok_bind]
      refine ih _ fun p member => ?_
      rw [Formula.size_withClause]
      exact later p member

theorem rescored_of_bumps {d : Database} {f g : Formula} {places : List Nat}
    (ran : d.bumps f places = .ok g) : f.Rescored g := by
  unfold bumps at ran
  split at ran
  next =>
    cases ran
    exact .refl f
  next => exact rescored_of_bumpAll _ places ran

theorem bumps_ok (d : Database) {f : Formula} {places : List Nat}
    (inside : ∀ place ∈ places, place < f.size) :
    ∃ g, d.bumps f places = .ok g ∧ f.Rescored g := by
  obtain ⟨g, ran⟩ : ∃ g, d.bumps f places = .ok g := by
    unfold bumps
    split
    next => exact ⟨f, rfl⟩
    next r _ => exact bumpAll_ok r.increment places f inside
  exact ⟨g, ran, rescored_of_bumps ran⟩

/-- Taking note of a conflict changes neither the index nor the limit, and removes nothing. -/
theorem onConflict_rescored (d : Database) (f : Formula) :
    f.Rescored (d.onConflict f).2 ∧ (d.onConflict f).1.index = d.index ∧
      (d.onConflict f).1.limit? = d.limit? ∧ (d.onConflict f).1.removed = d.removed := by
  unfold onConflict
  cases reduction : d.reduction with
  | none => exact ⟨.refl f, rfl, rfl, rfl⟩
  | some r =>
    simp only
    split
    · refine ⟨.mapIdx _ fun i c => ?_, rfl, by simp [limit?, reduction],
        by simp [removed, reduction]⟩
      split
      · exact ⟨rfl, rfl⟩
      · exact ⟨rfl, rfl⟩
    · exact ⟨.refl f, rfl, by simp [limit?, reduction], by simp [removed, reduction]⟩

end Database

end ClauseLearning
