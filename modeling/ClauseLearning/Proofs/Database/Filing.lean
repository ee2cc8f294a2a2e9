import ClauseLearning.Proofs.Database.Compaction

/-!
# Filing clauses

A clause that is stored has to be found again: by its literals, through the index, and by the
literals it watches, through the watch lists. Both hold places of clauses, and neither looks at the
trail.

Main statements: a learnt clause that is learnt again, in whatever order of literals, is found where
it is stored and takes over the new order; any other clause is stored behind the others. Both keep
index and watch lists right, and so does removing learnt clauses. Storing can only fail where a
literal to be watched has no list.
-/

namespace ClauseLearning

namespace Formula

/-- What storing a learnt clause makes of a formula, and at which place. -/
inductive Stores (f : Formula) (c : Clause) : Formula → Nat → Prop
  /-- A learnt clause has the same literals: it takes over their order, and nothing else changes. -/
  | again {place : Nat} {stored : Clause} (learnt : f.inputCount ≤ place)
      (at_place : f.clauses[place]? = some stored)
      (alike : ∀ l, l ∈ c.literals ↔ l ∈ stored.literals) :
      Stores f c (f.withClause place (stored.reorder c.literals)) place
  /-- No learnt clause has the same literals: the clause is appended. -/
  | new (novel : ∀ place stored, f.inputCount ≤ place → f.clauses[place]? = some stored →
      ¬∀ l, l ∈ c.literals ↔ l ∈ stored.literals) : Stores f c (f.push c) f.size

namespace Stores

variable {f g : Formula} {c : Clause} {place : Nat}

theorem numVars_eq (stores : f.Stores c g place) : g.numVars = f.numVars := by
  cases stores <;> rfl

theorem wellFormed (stores : f.Stores c g place) (wellFormed : f.WellFormed) (plain : c.Plain)
    (inside : ∀ l ∈ c.literals, 0 < l.var ∧ l.var ≤ f.numVars) : g.WellFormed := by
  cases stores with
  | @again _ stored learnt at_place alike =>
    have distinct := wellFormed.distinct (literalsAt_of_clause at_place)
    exact wellFormed.withClause at_place (d := stored.reorder c.literals)
      (perm_of_alike plain.distinct distinct alike).symm (wellFormed.present at_place :)
  | new => exact wellFormed.push plain inside

end Stores

end Formula

namespace Propagator

variable {p q : Propagator} {f : Formula} {c d : Clause} {place : Nat}

theorem kind_of_watches {w : Watches} (watches : w ∈ p.watches?) : p.kind = .watched := by
  cases p with
  | watched w n => rfl
  | scan n => cases watches

/-- If clauses are watched, there is a list for each literal that the clause watches. -/
def RoomFor (p : Propagator) (c : Clause) : Prop :=
  ∀ w ∈ p.watches?, ∀ l ∈ watchedOf c.literals, l.index < w.lists.size

theorem roomFor_of_declared (registers : ∀ w ∈ p.watches?, w.Registers f)
    (declared : ∀ l ∈ watchedOf c.literals, l.var ≤ f.numVars) : p.RoomFor c :=
  fun w watches l member => (registers w watches).index_lt (declared l member)

theorem roomFor_of_add (ran : p.add c place = .ok q) : p.RoomFor c := by
  cases p with
  | watched w n =>
    obtain ⟨next, added, _⟩ := map_eq_ok.1 ran
    rintro _ ⟨⟩
    exact Watches.room_of_add added
  | scan n => rintro _ ⟨⟩

theorem RoomFor.of_remove (room : q.RoomFor c) (ran : p.remove d place = .ok q) :
    p.RoomFor c := by
  cases p with
  | watched w n =>
    obtain ⟨next, removed, rfl⟩ := map_eq_ok.1 ran
    rintro _ ⟨⟩ l member
    rw [← Watches.size_of_remove removed]
    exact room next rfl l member
  | scan n => rintro _ ⟨⟩

theorem add_push_ok (registers : ∀ w ∈ p.watches?, w.Registers f) (room : p.RoomFor c) :
    ∃ q, p.add c f.size = .ok q ∧ q.kind = p.kind ∧
      ∀ w ∈ q.watches?, w.Registers (f.push c) := by
  cases p with
  | watched w n =>
    obtain ⟨next, added, registers⟩ := (registers w rfl).push (room w rfl)
    exact ⟨.watched next n, by simp only [add, added, map_ok], rfl, by rintro _ ⟨⟩; exact registers⟩
  | scan n => exact ⟨.scan n, rfl, rfl, by rintro _ ⟨⟩⟩

/-- The place leaves the lists of the old literals in front and enters those of the new ones. -/
theorem relist_ok (registers : ∀ w ∈ p.watches?, w.Registers f)
    (at_place : f.clauses[place]? = some c) (room : p.RoomFor d) :
    ∃ mid q, p.remove c place = .ok mid ∧ mid.add d place = .ok q ∧ q.kind = p.kind ∧
      ∀ w ∈ q.watches?, w.Registers (f.withClause place d) := by
  cases p with
  | watched w n =>
    obtain ⟨mid, next, removed, added, registers⟩ :=
      (registers w rfl).relist at_place (d := d) (room w rfl)
    exact ⟨.watched mid n, .watched next n, by simp only [remove, removed, map_ok],
      by simp only [add, added, map_ok], rfl, by rintro _ ⟨⟩; exact registers⟩
  | scan n => exact ⟨.scan n, .scan n, rfl, rfl, rfl, by rintro _ ⟨⟩⟩

/-- Whatever clauses are removed, the propagator can be renewed. -/
theorem renew_ok {g : Formula} {moved : Nat → Option Nat}
    (registers : ∀ w ∈ p.watches?, w.Registers f) (thins : f.Thins g moved) :
    ∃ q, (p.dropFrom f.inputCount).addAll g.learntRegion = .ok q ∧ q.kind = p.kind ∧
      ∀ w ∈ q.watches?, w.Registers g := by
  cases p with
  | watched w n =>
    obtain ⟨next, ran, registers⟩ := thins.registers (registers w rfl)
    refine ⟨.watched next n, ?_, rfl, by rintro _ ⟨⟩; exact registers⟩
    simp only [dropFrom, addAll, ran, map_ok]
  | scan n => exact ⟨.scan n, rfl, rfl, by rintro _ ⟨⟩⟩

end Propagator

namespace Database

/-- The index has the learnt clauses, the watch lists register all clauses, and none is marked as
deleted. -/
structure Files (d : Database) (f : Formula) (p : Propagator) : Prop where
  present : ∀ {place : Nat} {c : Clause}, f.clauses[place]? = some c → c.deleted = false
  indexes : d.Indexes f
  registers : ∀ w ∈ p.watches?, w.Registers f

namespace Files

variable {d : Database} {f : Formula} {p : Propagator}

theorem reorder (files : d.Files f p) {place : Nat} {stored : Clause} {ls : List Literal}
    {q : Propagator} (at_place : f.clauses[place]? = some stored)
    (perm : ls.Perm stored.literals)
    (registers : ∀ w ∈ q.watches?, w.Registers (f.withClause place (stored.reorder ls))) :
    d.Files (f.withClause place (stored.reorder ls)) q := by
  have same : f.SameClauses (f.withClause place (stored.reorder ls)) :=
    .withClause at_place perm.symm
  have inside := (Array.getElem?_eq_some_iff.1 at_place).1
  -- A new order of literals leaves the mark of the clause as it is.
  have kept : (stored.reorder ls).deleted = false := (files.present at_place :)
  exact ⟨Formula.present_withClause inside files.present kept, files.indexes.of_same same,
    registers⟩

/-- A learnt clause that is learnt again is found where it is stored, and takes over the new
order. -/
theorem insert_stored (files : d.Files f p) {place : Nat} {stored c : Clause}
    (learnt : f.inputCount ≤ place) (at_place : f.clauses[place]? = some stored)
    (perm : c.literals.Perm stored.literals) (room : p.RoomFor c) :
    ∃ q, d.insert f p c =
        .ok (d, f.withClause place (stored.reorder c.literals), q, place) ∧
      d.Files (f.withClause place (stored.reorder c.literals)) q ∧ q.kind = p.kind := by
  have found := Formula.literalsAt_of_clause at_place
  have indexed : d.index[c.key]? = some place :=
    (files.indexes _ _).2 ⟨learnt, _, found, Literal.sort_eq_iff.2 perm.symm⟩
  have read : f.clause place = .ok stored := lookup_eq_ok_iff.2 at_place
  have written := Formula.setClause_eq (Formula.lt_size_of_literalsAt found)
    (stored.reorder c.literals)
  obtain ⟨mid, q, removed, added, kind_eq, registers⟩ :=
    Propagator.relist_ok files.registers at_place (d := stored.reorder c.literals) room
  refine ⟨q, ?_, files.reorder at_place perm registers, kind_eq⟩
  simp only [Database.insert, indexed, read, removed, written, added, ok_bind, pure_eq_ok]

/-- A clause that is a rearrangement of no learnt one is stored behind the others. -/
theorem insert_new (files : d.Files f p) {c : Clause} (input_le : f.inputCount ≤ f.size)
    (present : c.deleted = false)
    (novel : ∀ {place ls}, f.inputCount ≤ place → f.literalsAt place = some ls →
      ¬ls.Perm c.literals) (room : p.RoomFor c) :
    ∃ next q, d.insert f p c = .ok (next, f.push c, q, f.size) ∧ next.Files (f.push c) q ∧
      q.kind = p.kind := by
  obtain ⟨q, added, kind_eq, registers⟩ := Propagator.add_push_ok files.registers room
  obtain ⟨next, inserted, indexes, _⟩ := files.indexes.insert novel input_le added
  exact ⟨next, q, inserted,
    ⟨fun found => Formula.present_push present files.present found, indexes, registers⟩, kind_eq⟩

/-- What a reduction leaves is filed without the removed clauses. -/
theorem reduced (files : d.Files f p) {gone : List Nat} {q : Propagator}
    (reduction : Option Reduction)
    (registers : ∀ w ∈ q.watches?, w.Registers (Reduction.compact f gone)) :
    Files ⟨if gone = [] then d.index else indexOf (Reduction.compact f gone), reduction⟩
      (Reduction.compact f gone) (if gone = [] then p else q) where
  present := (Reduction.thins_compact f gone).present files.present
  indexes := files.indexes.reduced files.present gone reduction
  registers := by
    split
    next nothing =>
      rw [nothing, Reduction.compact_nil]
      exact files.registers
    next => exact registers

end Files

/-- Storing a clause succeeds only if there is a list for each literal that it watches. -/
theorem roomFor_of_insert {d : Database} {f : Formula} {p : Propagator} {c : Clause}
    {result : Database × Formula × Propagator × Nat} (ran : d.insert f p c = .ok result) :
    p.RoomFor c := by
  unfold Database.insert at ran
  simp only at ran
  split at ran
  next place _ =>
    obtain ⟨stored, _, ran⟩ := bind_eq_ok.1 ran
    obtain ⟨mid, removed, ran⟩ := bind_eq_ok.1 ran
    obtain ⟨g, _, ran⟩ := bind_eq_ok.1 ran
    obtain ⟨q, added, _⟩ := bind_eq_ok.1 ran
    exact (Propagator.roomFor_of_add added : mid.RoomFor (stored.reorder c.literals)).of_remove
      removed
  next =>
    obtain ⟨q, added, _⟩ := bind_eq_ok.1 ran
    exact Propagator.roomFor_of_add added

end Database

end ClauseLearning
