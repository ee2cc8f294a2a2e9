import ClauseLearning.Proofs.Machinery.Operations

/-!
# Learnt clauses are stored once

The index knows the learnt clauses by their sorted literals. Behind its back propagation rearranges
them and reductions renumber and remove them, and it is built anew only when clauses go.

Main statement: after any operations, in any order, no two learnt clauses have the same literals. A
clause with the literals of a stored one is found there and gives it its order, and any other clause
is stored behind the others.
-/

namespace ClauseLearning

namespace Formula

/-- No two learnt clauses have the same literals. -/
def LearntApart (f : Formula) : Prop :=
  ∀ ⦃p q : Nat⦄ ⦃ls ms : List Literal⦄, f.inputCount ≤ p → f.inputCount ≤ q →
    f.literalsAt p = some ls → f.literalsAt q = some ms → (∀ l, l ∈ ls ↔ l ∈ ms) → p = q

theorem LearntOnce.learntApart {f : Formula} (once : f.LearntOnce) (plain : f.Plain) :
    f.LearntApart :=
  fun _ _ _ _ learnt_p learnt_q at_p at_q alike => once learnt_p learnt_q at_p at_q
    (perm_of_alike (plain.distinct at_p) (plain.distinct at_q) alike)

end Formula

namespace Machinery

/-- From new parts for a constructed formula, whatever operations have been done with clauses that
have no variable twice, the learnt clauses have different literals, and storing a further clause
finds it or appends it. Within bounds all operations succeed. -/
theorem stores_learnt_once {f : Formula} (constructed : f.Constructed) (kind : PropagatorKind)
    (policy : DatabaseKind) (options : Options) :
    ∃ start, make kind policy options f = .ok start ∧
      (∀ ops, Permitted (permits f.numVars) operate ops start →
        ∃ s, ops.foldlM operate start = .ok s) ∧
      ∀ (ops : List Operation) (s : Machinery), (∀ op ∈ ops, op.Plain) →
        ops.foldlM operate start = .ok s →
        s.formula.inputCount = f.size ∧ s.formula.LearntApart ∧
        ∀ c : Clause, c.Plain →
          (∀ d g q place, s.database.insert s.formula s.propagator c = .ok (d, g, q, place) →
            s.formula.Stores c g place) ∧
          ((kind = .watched → ∀ l ∈ watchedOf c.literals, l.var ≤ f.numVars) →
            ∃ result, s.database.insert s.formula s.propagator c = .ok result) := by
  obtain ⟨start, made, filed, inOrder⟩ := make_ok constructed kind policy options
  refine ⟨start, made, fun ops permitted => ?_, fun ops s plain ran => ?_⟩
  · obtain ⟨s, ran, _⟩ := inOrder.run filed permitted
    exact ⟨s, ran⟩
  have filed_s := filed.run plain ran
  refine ⟨filed_s.inputCount_eq, filed_s.indexes.learntOnce.learntApart filed_s.plain,
    fun c plain_c => ⟨fun d g q place inserted => ?_, fun declared => ?_⟩⟩
  · obtain ⟨_, _, _, _, inserted', stores, _⟩ :=
      filed_s.insert plain_c (Database.roomFor_of_insert inserted)
    cases inserted.symm.trans inserted'
    exact stores
  · have room : s.propagator.RoomFor c := by
      intro w watches l member
      have watched := filed_s.kind_eq.symm.trans (Propagator.kind_of_watches watches)
      exact (filed_s.registers w watches).index_lt (filed_s.numVars_eq ▸ declared watched l member)
    obtain ⟨_, _, _, _, inserted, _⟩ := filed_s.insert plain_c room
    exact ⟨_, inserted⟩

/-- A decision is made and propagated. -/
def deciding : List Operation :=
  [.move (.decide ⟨1, false⟩), .propagate]

/-- A clause, and the same literals in another order. -/
def earlier : Clause := .ofLearnt [⟨2, true⟩, ⟨4, false⟩, ⟨1, true⟩] 3

def later : Clause := .ofLearnt [⟨1, true⟩, ⟨2, true⟩, ⟨4, false⟩] 2

theorem stores_learnt_once_later :
    ∃ f start s d g q, Formula.withVars 4 [[1, 2, 3], [-1, 2, 4], [-3, 4]] = .ok f ∧
      make .watched .byLbd Options.standard f = .ok start ∧
      (deciding ++ [Operation.learn earlier]).foldlM operate start = .ok s ∧
      s.database.insert s.formula s.propagator later = .ok (d, g, q, 3) ∧
      s.formula.literalsAt 3 = some earlier.literals ∧ g.literalsAt 3 = some later.literals ∧
      g.size = 4 := by
  obtain ⟨f, accepted, size_f, numVars_f, seen⟩ : ∃ f : Formula,
      Formula.withVars 4 [[1, 2, 3], [-1, 2, 4], [-3, 4]] = .ok f ∧ f.size = 3 ∧ f.numVars = 4 ∧
      (do
        let s ← make .watched .byLbd Options.standard f
        let s ← deciding.foldlM operate s
        return s.formula.size : Except Fault Nat) = .ok 3 :=
    ⟨_, rfl, rfl, rfl, by decide +kernel⟩
  obtain ⟨start, made, _, stores⟩ :=
    stores_learnt_once (.withVars accepted) .watched .byLbd Options.standard
  rw [made, ok_bind, bind_eq_ok] at seen
  obtain ⟨s, ran, size_s⟩ := seen
  replace size_s : s.formula.size = 3 := Except.ok.inj size_s
  have declared : ∀ c ∈ [earlier, later], ∀ l ∈ watchedOf c.literals, l.var ≤ f.numVars := by
    rw [numVars_f]
    decide
  -- The first time the clause is appended, since nothing has been learnt before.
  obtain ⟨inputCount_s, _, storing⟩ := stores deciding s (by decide) ran
  obtain ⟨outcome, succeeds⟩ := storing earlier (by decide)
  obtain ⟨⟨d, g, q, place⟩, inserted⟩ := succeeds fun _ => declared _ (List.mem_cons_self ..)
  have appended : g = s.formula.push earlier := by
    cases outcome d g q place inserted with
    | again learnt at_place =>
      have inside := Formula.lt_size_of_literalsAt (Formula.literalsAt_of_clause at_place)
      omega
    | new => rfl
  subst appended
  have ran_next : (deciding ++ [Operation.learn earlier]).foldlM operate start =
      .ok { s with database := d, formula := s.formula.push earlier, propagator := q } :=
    foldlM_snoc_eq_ok ran (by simp only [operate, inserted, ok_bind, pure_eq_ok])
  have size_next : (s.formula.push earlier).size = 4 := by rw [Formula.size_push, size_s]
  have at_three : (s.formula.push earlier).clauses[3]? = some earlier := by
    rw [← size_s]
    exact Array.getElem?_push_size
  -- The second time it is found behind the input, where there is no other clause.
  obtain ⟨inputCount_next, _, storing_next⟩ := stores _ _ (by decide) ran_next
  obtain ⟨outcome, succeeds⟩ := storing_next later (by decide)
  obtain ⟨⟨e, h, r, found⟩, again⟩ :=
    succeeds fun _ => declared _ (List.mem_cons_of_mem _ (List.mem_cons_self ..))
  cases outcome e h r found again with
  | again learnt at_found =>
    have inside : found < (s.formula.push earlier).size :=
      Formula.lt_size_of_literalsAt (Formula.literalsAt_of_clause at_found)
    obtain rfl : found = 3 := by omega
    refine ⟨f, start, _, e, _, r, accepted, made, ran_next, again,
      Formula.literalsAt_of_clause at_three, ?_, (Formula.size_withClause ..).trans size_next⟩
    rw [Formula.literalsAt_withClause inside, if_pos rfl]
    rfl
  | new novel =>
    have perm : later.literals.Perm earlier.literals := by decide
    exact absurd (fun l => perm.mem_iff) (novel 3 earlier (by omega) at_three)

end Machinery

end ClauseLearning
