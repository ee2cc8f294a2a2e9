import ClauseLearning.Database
import ClauseLearning.Proofs.Coherence

/-!
# The index of the learnt clauses

The database knows the learnt clauses by their sorted literals. Two lists of literals have the same
sorted list exactly when one is a rearrangement of the other, so propagation may reorder clauses
without the index becoming stale.

Main statements: the index built from the learnt clauses of a formula has exactly them, provided
that no two of them are rearrangements of each other; a clause that is a rearrangement of no learnt
one is stored as a new clause, and the index stays exact.
-/

namespace ClauseLearning

namespace Literal

theorem sort_eq_iff {ls ms : List Literal} : sort ls = sort ms ↔ ls.Perm ms := by
  constructor
  · intro same
    exact (sort_perm ls).symm.trans (same ▸ sort_perm ms)
  · intro perm
    -- Different literals have different codes, so there is one sorted order only.
    exact List.Perm.eq_of_pairwise
      (fun a b _ _ first second => index_injective (Nat.le_antisymm first second))
      (pairwise_sort ls) (pairwise_sort ms) ((sort_perm ls).trans (perm.trans (sort_perm ms).symm))

end Literal

namespace Formula

theorem mem_learntRegion {f : Formula} {place : Nat} {c : Clause} :
    (place, c) ∈ f.learntRegion ↔ f.inputCount ≤ place ∧ f.clauses[place]? = some c := by
  unfold learntRegion
  rw [List.mem_mapIdx]
  simp only [Prod.mk.injEq]
  constructor
  · rintro ⟨i, inside, rfl, rfl⟩
    refine ⟨Nat.le_add_right _ _, ?_⟩
    rw [List.length_drop, Array.length_toList] at inside
    rw [List.getElem_drop, Array.getElem_toList, Array.getElem?_eq_getElem]
  · rintro ⟨learnt, found⟩
    obtain ⟨inside, rfl⟩ := Array.getElem?_eq_some_iff.1 found
    refine ⟨place - f.inputCount, ?_, by omega, ?_⟩
    · rw [List.length_drop, Array.length_toList]
      omega
    · rw [List.getElem_drop, Array.getElem_toList]
      congr 1
      omega

theorem places_learntRegion (f : Formula) :
    f.learntRegion.map Prod.fst = List.range' f.inputCount (f.size - f.inputCount) := by
  apply List.ext_getElem
  · simp [learntRegion, size]
  · intro i _ _
    simp [learntRegion]

theorem clauses_learntRegion (f : Formula) :
    f.learntRegion.map Prod.snd = f.clauses.toList.drop f.inputCount := by
  apply List.ext_getElem
  · simp [learntRegion]
  · intro i _ _
    simp [learntRegion]

theorem length_learntRegion (f : Formula) : f.learntRegion.length = f.size - f.inputCount := by
  simp [learntRegion, size]

/-- Without deleted clauses, every clause behind the input counts as learnt. -/
theorem learntClauses_eq {f : Formula}
    (present : ∀ {place : Nat} {c : Clause}, f.clauses[place]? = some c → c.deleted = false) :
    f.learntClauses = f.learntRegion := by
  unfold learntClauses
  rw [List.filter_eq_self]
  rintro ⟨place, c⟩ member
  simp [present (mem_learntRegion.1 member).2]

theorem mem_learntClauses {f : Formula} (wellFormed : f.WellFormed) {place : Nat} {c : Clause} :
    (place, c) ∈ f.learntClauses ↔ f.inputCount ≤ place ∧ f.clauses[place]? = some c := by
  rw [learntClauses_eq wellFormed.present]
  exact mem_learntRegion

theorem numLearnt_eq {f : Formula} (wellFormed : f.WellFormed) :
    f.numLearnt = f.size - f.inputCount := by
  rw [numLearnt, learntClauses_eq wellFormed.present, length_learntRegion]

theorem nodup_places (f : Formula) : (f.learntRegion.map Prod.fst).Nodup := by
  rw [places_learntRegion]
  exact List.nodup_range'

/-- No two learnt clauses are rearrangements of each other. -/
def LearntOnce (f : Formula) : Prop :=
  ∀ ⦃p q : Nat⦄ ⦃ls ms : List Literal⦄, f.inputCount ≤ p → f.inputCount ≤ q →
    f.literalsAt p = some ls → f.literalsAt q = some ms → ls.Perm ms → p = q

theorem learntOnce_iff {f : Formula} :
    f.LearntOnce ↔ ∀ a ∈ f.learntRegion, ∀ b ∈ f.learntRegion,
      a.2.literals.Perm b.2.literals → a.1 = b.1 := by
  constructor
  · rintro once ⟨p, c⟩ p_mem ⟨q, d⟩ q_mem perm
    obtain ⟨learnt_p, at_p⟩ := mem_learntRegion.1 p_mem
    obtain ⟨learnt_q, at_q⟩ := mem_learntRegion.1 q_mem
    exact once learnt_p learnt_q (literalsAt_of_clause at_p) (literalsAt_of_clause at_q) perm
  · intro different p q ls ms learnt_p learnt_q found_p found_q perm
    obtain ⟨c, at_p, rfl⟩ := literalsAt_eq_some.1 found_p
    obtain ⟨d, at_q, rfl⟩ := literalsAt_eq_some.1 found_q
    exact different (p, c) (mem_learntRegion.2 ⟨learnt_p, at_p⟩) (q, d)
      (mem_learntRegion.2 ⟨learnt_q, at_q⟩) perm

instance (f : Formula) : Decidable f.LearntOnce :=
  decidable_of_iff' _ learntOnce_iff

end Formula

namespace Database

/-- The index has the learnt clauses and nothing else. -/
def Indexes (d : Database) (f : Formula) : Prop :=
  ∀ (key : List Literal) (place : Nat), d.index[key]? = some place ↔
    f.inputCount ≤ place ∧ ∃ ls, f.literalsAt place = some ls ∧ Literal.sort ls = key

theorem Indexes.learntOnce {d : Database} {f : Formula} (indexes : d.Indexes f) :
    f.LearntOnce := by
  intro p q ls ms learnt_p learnt_q at_p at_q perm
  have first := (indexes (Literal.sort ls) p).2 ⟨learnt_p, ls, at_p, rfl⟩
  have second := (indexes (Literal.sort ls) q).2
    ⟨learnt_q, ms, at_q, (Literal.sort_eq_iff.2 perm).symm⟩
  exact Option.some.inj (first.symm.trans second)

theorem Indexes.of_same {d : Database} {f g : Formula} (indexes : d.Indexes f)
    (same : f.SameClauses g) : d.Indexes g := by
  intro key place
  rw [indexes, same.inputCount_eq]
  constructor
  · rintro ⟨learnt, ls, found, rfl⟩
    obtain ⟨ms, at_g, perm⟩ := same.forth found
    exact ⟨learnt, ms, at_g, (Literal.sort_eq_iff.2 perm).symm⟩
  · rintro ⟨learnt, ms, found, rfl⟩
    obtain ⟨ls, at_f, perm⟩ := same.back found
    exact ⟨learnt, ls, at_f, Literal.sort_eq_iff.2 perm⟩

/-- An index that is filled entry by entry has the entries, if their keys are different, and what it
had under other keys. -/
theorem getElem?_foldl_insert (entries : List (Nat × Clause)) (key : List Literal) (place : Nat) :
    ∀ index : Std.TreeMap (List Literal) Nat, (entries.map fun e => e.2.key).Nodup →
      ((entries.foldl (fun index e => index.insert e.2.key e.1) index)[key]? = some place ↔
        (∃ c, (place, c) ∈ entries ∧ c.key = key) ∨
          index[key]? = some place ∧ key ∉ entries.map fun e => e.2.key) := by
  induction entries with
  | nil => simp
  | cons entry rest ih =>
    -- The index is the accumulator of the fold, so the claim is about any index.
    intro index distinct
    obtain ⟨fresh, distinct_rest⟩ := List.nodup_cons.1 distinct
    rw [List.foldl_cons, ih _ distinct_rest, Std.TreeMap.getElem?_insert]
    by_cases own : entry.2.key = key
    · -- The entry itself is the one that is looked for, since no later one has its key.
      subst own
      have later : ∀ c, (place, c) ∈ rest → c.key ≠ entry.2.key := fun c member same =>
        fresh (List.mem_map.2 ⟨(place, c), member, same⟩)
      simp only [Std.ReflCmp.compare_self, if_true, Option.some.injEq]
      constructor
      · rintro (⟨c, member, same⟩ | ⟨rfl, _⟩)
        · exact absurd same (later c member)
        · exact .inl ⟨entry.2, List.mem_cons_self .., rfl⟩
      · rintro (⟨c, member, same⟩ | ⟨_, absent⟩)
        · rcases List.mem_cons.1 member with rfl | old
          · exact .inr ⟨rfl, fresh⟩
          · exact absurd same (later c old)
        · simp at absent
    -- The entry goes under another key, and the lookup does not see it.
    · have different : compare entry.2.key key ≠ .eq := fun same =>
        own (Std.LawfulEqOrd.eq_of_compare same)
      simp only [different, if_false, List.mem_cons, List.map_cons, not_or]
      constructor
      · rintro (⟨c, member, same⟩ | ⟨found, absent⟩)
        · exact .inl ⟨c, .inr member, same⟩
        · exact .inr ⟨found, Ne.symm own, absent⟩
      · rintro (⟨c, rfl | member, same⟩ | ⟨found, _, absent⟩)
        · exact absurd same own
        · exact .inl ⟨c, member, same⟩
        · exact .inr ⟨found, absent⟩

theorem nodup_keys {f : Formula} (once : f.LearntOnce) :
    (f.learntRegion.map fun e => e.2.key).Nodup := by
  refine (List.Nodup.of_map _ f.nodup_places).map_on fun a a_mem b b_mem same => ?_
  have place := Formula.learntOnce_iff.1 once a a_mem b b_mem (Literal.sort_eq_iff.1 same)
  exact List.inj_on_of_nodup_map f.nodup_places a_mem b_mem place

/-- An index that is built anew has the learnt clauses. -/
theorem indexes_indexOf {d : Database} {f : Formula} (built : d.index = indexOf f)
    (present : ∀ {place : Nat} {c : Clause}, f.clauses[place]? = some c → c.deleted = false)
    (once : f.LearntOnce) : d.Indexes f := by
  intro key place
  rw [built, indexOf, Formula.learntClauses_eq present,
    getElem?_foldl_insert _ _ _ _ (nodup_keys once)]
  simp only [Formula.mem_learntRegion, Std.TreeMap.getElem?_emptyc, reduceCtorEq, false_and,
    or_false]
  constructor
  · rintro ⟨c, ⟨learnt, found⟩, rfl⟩
    exact ⟨learnt, c.literals, Formula.literalsAt_of_clause found, rfl⟩
  · rintro ⟨learnt, ls, found, rfl⟩
    obtain ⟨c, at_place, rfl⟩ := Formula.literalsAt_eq_some.1 found
    exact ⟨c, ⟨learnt, at_place⟩, rfl⟩

/-- A clause that is a rearrangement of no learnt one is not in the index. -/
theorem Indexes.getElem?_eq_none {d : Database} {f : Formula} {c : Clause} (indexes : d.Indexes f)
    (novel : ∀ {place ls}, f.inputCount ≤ place → f.literalsAt place = some ls →
      ¬ls.Perm c.literals) : d.index[c.key]? = none := by
  cases found : d.index[c.key]? with
  | none => rfl
  | some place =>
    obtain ⟨learnt, ls, at_place, same⟩ := (indexes c.key place).1 found
    exact absurd (Literal.sort_eq_iff.1 same) (novel learnt at_place)

/-- Such a clause is stored as a new one. -/
theorem Indexes.insert {d : Database} {f : Formula} {c : Clause} (indexes : d.Indexes f)
    (novel : ∀ {place ls}, f.inputCount ≤ place → f.literalsAt place = some ls →
      ¬ls.Perm c.literals)
    (input_le : f.inputCount ≤ f.size) {p q : Propagator} (added : p.add c f.size = .ok q) :
    ∃ next : Database, d.insert f p c = .ok (next, f.push c, q, f.size) ∧
      next.Indexes (f.push c) ∧ next.reduction = d.reduction := by
  refine ⟨{ d with index := d.index.insert c.key f.size }, ?_, ?_, rfl⟩
  · simp only [Database.insert, indexes.getElem?_eq_none novel, added, ok_bind, pure_eq_ok]
  · intro key place
    change (d.index.insert c.key f.size)[key]? = some place ↔ f.inputCount ≤ place ∧ _
    rw [Std.TreeMap.getElem?_insert, Formula.literalsAt_push]
    by_cases own : c.key = key
    · -- Under its key there was nothing before.
      subst own
      simp only [Std.ReflCmp.compare_self, if_true, Option.some.injEq]
      constructor
      · rintro rfl
        exact ⟨input_le, c.literals, if_pos rfl, rfl⟩
      · rintro ⟨learnt, ls, found, same⟩
        split at found
        next here => exact here.symm
        next => exact absurd (Literal.sort_eq_iff.1 same) (novel learnt found)
    -- Under other keys the index is as before, and so are the places before the new one.
    · have different : compare c.key key ≠ .eq := fun same =>
        own (Std.LawfulEqOrd.eq_of_compare same)
      simp only [different, if_false]
      rw [indexes]
      constructor
      · rintro ⟨inside, ls, found, same⟩
        have old := Nat.ne_of_lt (Formula.lt_size_of_literalsAt found)
        exact ⟨inside, ls, by rw [if_neg old, found], same⟩
      · rintro ⟨inside, ls, found, same⟩
        split at found
        next =>
          cases found
          exact absurd same own
        next => exact ⟨inside, ls, found, same⟩

end Database

end ClauseLearning
