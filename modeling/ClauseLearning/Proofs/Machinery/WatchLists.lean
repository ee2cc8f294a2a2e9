import ClauseLearning.Proofs.Machinery.Operations

/-!
# Watch lists list clauses once

A clause that is missing from a list is overlooked when one of its literals becomes false, and a
clause that is on a list twice is looked at in vain. Propagation takes a list out, writes back what
stays of it and appends to other lists meanwhile; a clause that is learnt again moves between lists,
and a reduction renumbers the clauses.

Main statement: after any operations, in any order, each clause of two or more literals is once on
each of the lists of its first two literals and on no other list.
-/

namespace ClauseLearning

/-- A clause of two or more literals is once on each of the lists of its first two and on no other
list, a shorter one is on no list, and the lists have places of clauses only. -/
structure Watches.ListOnce (w : Watches) (f : Formula) : Prop where
  differ : ∀ {place : Nat} {a b : Literal} {rest : List Literal},
    f.literalsAt place = some (a :: b :: rest) → a ≠ b
  first : ∀ {place : Nat} {a b : Literal} {rest : List Literal},
    f.literalsAt place = some (a :: b :: rest) → (w.listOf a).count place = 1
  second : ∀ {place : Nat} {a b : Literal} {rest : List Literal},
    f.literalsAt place = some (a :: b :: rest) → (w.listOf b).count place = 1
  others : ∀ {place i : Nat} {a b : Literal} {rest : List Literal} {places : Array Nat},
    f.literalsAt place = some (a :: b :: rest) → w.lists[i]? = some places → i ≠ a.index →
      i ≠ b.index → place ∉ places
  short : ∀ {place : Nat} {ls : List Literal} {places : Array Nat},
    f.literalsAt place = some ls → ls.length < 2 → places ∈ w.lists → place ∉ places
  inside : ∀ {place : Nat} {places : Array Nat}, places ∈ w.lists → place ∈ places → place < f.size

/-- Counted registration says it all when no clause has a literal twice. -/
theorem Watches.Registers.listOnce {w : Watches} {f : Formula} (registers : w.Registers f)
    (plain : f.Plain) : w.ListOnce f := by
  have differ : ∀ {place : Nat} {a b : Literal} {rest : List Literal},
      f.literalsAt place = some (a :: b :: rest) → a ≠ b := by
    rintro place a b rest found rfl
    have distinct := (plain.distinct found).of_map
    simp at distinct
  have watched : ∀ {place : Nat} {a b : Literal} {rest : List Literal},
      f.literalsAt place = some (a :: b :: rest) → f.watchedAt place = [a, b] :=
    Formula.watchedAt_of_literalsAt
  refine ⟨differ, fun found => ?_, fun found => ?_,
    fun found at_i not_first not_second member => ?_, fun found short listed member => ?_,
    registers.place_lt⟩
  · rw [registers.count_eq, watched found]
    simp [(differ found).symm]
  · rw [registers.count_eq, watched found]
    simp [differ found]
  · obtain ⟨l, rfl, watches⟩ := registers.exists_watched at_i member
    rw [watched found, List.mem_pair] at watches
    rcases watches with rfl | rfl
    · exact not_first rfl
    · exact not_second rfl
  · obtain ⟨i, at_i⟩ := Array.mem_iff_getElem?.1 listed
    obtain ⟨_, _, watches⟩ := registers.exists_watched at_i member
    obtain ⟨x, y, rest, long, _⟩ := Formula.exists_watchedAt_of_mem watches
    cases found.symm.trans long
    simp only [List.length_cons] at short
    omega

namespace Machinery

/-- From new parts for a constructed formula, every permitted sequence of operations succeeds, and
afterwards the watch lists have each clause once. -/
theorem watches_listOnce {f : Formula} (constructed : f.Constructed) (policy : DatabaseKind)
    (options : Options) :
    ∃ start, make .watched policy options f = .ok start ∧
      ∀ ops, Permitted (permits f.numVars) operate ops start →
        ∃ s w count, ops.foldlM operate start = .ok s ∧ s.propagator = .watched w count ∧
          w.ListOnce s.formula := by
  obtain ⟨start, made, filed, inOrder⟩ := make_ok constructed .watched policy options
  refine ⟨start, made, fun ops permitted => ?_⟩
  obtain ⟨s, ran, filed_s⟩ := inOrder.run filed permitted
  have kind_eq := filed_s.kind_eq
  have registers := filed_s.registers
  cases propagator : s.propagator with
  | watched w count =>
    rw [propagator] at registers
    exact ⟨s, w, count, ran, propagator, (registers w rfl).listOnce filed_s.plain⟩
  | scan count =>
    rw [propagator] at kind_eq
    cases kind_eq

/-- Two decisions force a literal. -/
def forcing : List Operation :=
  [.move (.decide ⟨1, false⟩), .propagate, .move (.decide ⟨2, false⟩), .propagate]

/-- Clauses are learnt in turn, with a reduction after each of them. -/
def relearning (clauses : List (List Literal)) : List Operation :=
  clauses.flatMap fun ls => [.learn (.ofLearnt ls 3), .propagate, .reduce, .move (.backtrack 0)]

/-- Two clauses, and the same two in other orders. -/
def twoTwice : List (List Literal) :=
  [[⟨2, true⟩, ⟨4, false⟩, ⟨1, true⟩], [⟨3, true⟩, ⟨1, true⟩, ⟨4, true⟩],
    [⟨1, true⟩, ⟨2, true⟩, ⟨4, false⟩], [⟨4, true⟩, ⟨3, true⟩, ⟨1, true⟩]]

theorem watches_listOnce_relearning :
    ∃ f start s w count, Formula.withVars 4 [[1, 2, 3], [-1, 2, 4], [-3, 4]] = .ok f ∧
      make .watched .byLbd Options.standard f = .ok start ∧
      Permitted (permits f.numVars) operate (forcing ++ relearning twoTwice) start ∧
      (forcing ++ relearning twoTwice).foldlM operate start = .ok s ∧
      s.propagator = .watched w count ∧ w.ListOnce s.formula := by
  obtain ⟨f, accepted, numVars_eq, forced⟩ : ∃ f : Formula,
      Formula.withVars 4 [[1, 2, 3], [-1, 2, 4], [-3, 4]] = .ok f ∧ f.numVars = 4 ∧
      (make .watched .byLbd Options.standard f).toOption.all (fun s =>
        decide (Permitted (permits 4) operate forcing s)) = true :=
    ⟨_, rfl, rfl, by decide +kernel⟩
  obtain ⟨start, made, lists⟩ := watches_listOnce (.withVars accepted) .byLbd Options.standard
  rw [made] at forced
  have learnt : ∀ ls ∈ twoTwice, (Clause.ofLearnt ls 3).Plain ∧
      ∀ l ∈ (Clause.ofLearnt ls 3).literals, 0 < l.var ∧ l.var ≤ 4 := by
    decide
  -- From then on, what is permitted does not depend on the state.
  have always : ∀ op ∈ relearning twoTwice, ∀ s, permits 4 s op := by
    intro op member s
    obtain ⟨ls, listed, member⟩ := List.mem_flatMap.1 member
    simp only [List.mem_cons, List.not_mem_nil, or_false] at member
    rcases member with rfl | rfl | rfl | rfl
    · exact learnt ls listed
    all_goals trivial
  have permitted := (of_decide_eq_true forced).append (Permitted.of_forall always)
  rw [← numVars_eq] at permitted
  obtain ⟨s, w, count, ran, watched, once⟩ := lists _ permitted
  exact ⟨f, start, s, w, count, accepted, made, permitted, ran, watched, once⟩

end Machinery

end ClauseLearning
