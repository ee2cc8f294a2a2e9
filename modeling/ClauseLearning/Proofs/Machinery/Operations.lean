import ClauseLearning.Proofs.Construction
import ClauseLearning.Proofs.Database.Activity
import ClauseLearning.Proofs.Database.Filing
import ClauseLearning.Proofs.Propagation.Upkeep
import ClauseLearning.Proofs.Trail.History

/-!
# The parts that hold clauses, worked together

Formula, trail, propagator and database refer to each other's clauses by place. A search works them
in a fixed order; here they are worked in any order, with conflicts left standing, with reasons that
force nothing and with learnt clauses that follow from nothing.

Main statements: what succeeds keeps the clauses filed, under their literals and under the literals
they watch, as long as learnt clauses have no variable twice. If assignments, learnt clauses and
places are also within bounds, everything succeeds.
-/

namespace ClauseLearning

/-- The parts of a solver that hold clauses or refer to them. -/
structure Machinery where
  database : Database
  formula : Formula
  trail : Trail
  propagator : Propagator

theorem Trail.Stacked.remap {t : Trail} {moved : Nat → Option Nat} (stacked : t.Stacked) :
    (t.remap moved).Stacked where
  start_le found := by
    rw [size_remap]
    exact stacked.start_le found
  mono := stacked.mono

namespace Machinery

/-- New parts for a formula, with nothing assigned. -/
def make (kind : PropagatorKind) (policy : DatabaseKind) (options : Options) (f : Formula) :
    Except Fault Machinery := do
  return ⟨.make policy f options, f, .empty f.numVars, ← Propagator.make kind f⟩

/-- What can be done with the parts: change the trail, propagate, store a learnt clause, raise the
activities of clauses, take note of a conflict, and reduce the database. -/
inductive Operation where
  | move (m : Trail.Move)
  | propagate
  | learn (c : Clause)
  | bump (places : List Nat)
  | conflict
  | reduce

def operate (s : Machinery) : Operation → Except Fault Machinery
  | .move m => do
    return { s with trail := ← s.trail.move m }
  | .propagate => do
    let (p, t, f, _) ← s.propagator.propagate s.trail s.formula
    return { s with propagator := p, trail := t, formula := f }
  | .learn c => do
    let (d, f, p, _) ← s.database.insert s.formula s.propagator c
    return { s with database := d, formula := f, propagator := p }
  | .bump places => do
    return { s with formula := ← s.database.bumps s.formula places }
  | .conflict =>
    .ok { s with
      database := (s.database.onConflict s.formula).1
      formula := (s.database.onConflict s.formula).2 }
  | .reduce => do
    let (d, f, t, p, _) ← s.database.reduce s.formula s.trail s.propagator
    return ⟨d, f, t, p⟩

/-- A clause that is learnt has no variable twice. -/
def Operation.Plain : Operation → Prop
  | .learn c => c.Plain
  | _ => True

instance : ∀ op : Operation, Decidable op.Plain
  | .learn c => inferInstanceAs (Decidable c.Plain)
  | .move _ | .propagate | .bump _ | .conflict | .reduce => inferInstanceAs (Decidable True)

/-- Only free variables of `1, …, n` are assigned, learnt clauses are over these variables and have
none of them twice, and clauses are rewarded where there are some. -/
def permits (n : Nat) (s : Machinery) : Operation → Prop
  | .move m => s.trail.permits n m
  | .learn c => c.Plain ∧ ∀ l ∈ c.literals, 0 < l.var ∧ l.var ≤ n
  | .bump places => ∀ place ∈ places, place < s.formula.size
  | _ => True

instance (n : Nat) (s : Machinery) : ∀ op, Decidable (s.permits n op)
  | .move m => inferInstanceAs (Decidable (s.trail.permits n m))
  | .learn c => inferInstanceAs (Decidable (c.Plain ∧ ∀ l ∈ c.literals, 0 < l.var ∧ l.var ≤ n))
  | .bump places => inferInstanceAs (Decidable (∀ place ∈ places, place < s.formula.size))
  | .propagate | .conflict | .reduce => inferInstanceAs (Decidable True)

theorem plain_of_permits {n : Nat} {s : Machinery} {op : Operation}
    (permitted : s.permits n op) : op.Plain := by
  cases op with
  | learn c => exact permitted.1
  | _ => trivial

/-! ### What succeeds keeps the clauses filed -/

/-- The formula has `n` variables and `k` input clauses, none of its clauses has a variable twice,
and all are filed: the index has the learnt ones and the watch lists register all of them. -/
structure Filed (n k : Nat) (kind : PropagatorKind) (s : Machinery) : Prop where
  numVars_eq : s.formula.numVars = n
  inputCount_eq : s.formula.inputCount = k
  input_le : s.formula.inputCount ≤ s.formula.size
  plain : s.formula.Plain
  indexes : s.database.Indexes s.formula
  registers : ∀ w ∈ s.propagator.watches?, w.Registers s.formula
  kind_eq : s.propagator.kind = kind

namespace Filed

variable {n k : Nat} {kind : PropagatorKind} {s next : Machinery}

theorem files (filed : s.Filed n k kind) : s.database.Files s.formula s.propagator :=
  ⟨filed.plain.present, filed.indexes, filed.registers⟩

/-- Clauses stay filed while nothing but the order of their literals changes. -/
theorem of_same (filed : s.Filed n k kind) (same : s.formula.SameClauses next.formula)
    (plain : next.formula.Plain) (index_eq : next.database.index = s.database.index)
    (registers : ∀ w ∈ next.propagator.watches?, w.Registers next.formula)
    (kind_eq : next.propagator.kind = s.propagator.kind) : next.Filed n k kind where
  numVars_eq := same.numVars_eq.trans filed.numVars_eq
  inputCount_eq := same.inputCount_eq.trans filed.inputCount_eq
  input_le := by
    rw [same.inputCount_eq, same.size_eq]
    exact filed.input_le
  plain := plain
  indexes := by
    have indexes : s.database.Indexes next.formula := filed.indexes.of_same same
    unfold Database.Indexes at indexes ⊢
    rwa [index_eq]
  registers := registers
  kind_eq := kind_eq.trans filed.kind_eq

theorem of_rescored (filed : s.Filed n k kind) (rescored : s.formula.Rescored next.formula)
    (index_eq : next.database.index = s.database.index)
    (propagator_eq : next.propagator = s.propagator) : next.Filed n k kind := by
  refine filed.of_same rescored.same (rescored.plain filed.plain) index_eq ?_
    (congrArg Propagator.kind propagator_eq)
  rw [propagator_eq]
  exact fun w watches => rescored.registers (filed.registers w watches)

/-- A learnt clause that is learnt again takes over the new order of literals. -/
theorem insert_stored (filed : s.Filed n k kind) {place : Nat} {stored c : Clause}
    (learnt : s.formula.inputCount ≤ place) (at_place : s.formula.clauses[place]? = some stored)
    (perm : c.literals.Perm stored.literals) (room : s.propagator.RoomFor c) :
    ∃ q, s.database.insert s.formula s.propagator c =
        .ok (s.database, s.formula.withClause place (stored.reorder c.literals), q, place) ∧
      Filed n k kind { s with
        formula := s.formula.withClause place (stored.reorder c.literals), propagator := q } := by
  obtain ⟨q, inserted, files, kind_eq⟩ := filed.files.insert_stored learnt at_place perm room
  have same : s.formula.SameClauses _ :=
    .withClause (d := stored.reorder c.literals) at_place perm.symm
  exact ⟨q, inserted,
    filed.of_same same (same.plain filed.plain files.present) rfl files.registers kind_eq⟩

/-- Any other clause is stored behind the others. -/
theorem insert_new (filed : s.Filed n k kind) {c : Clause} (plain : c.Plain)
    (novel : ∀ {place ls}, s.formula.inputCount ≤ place → s.formula.literalsAt place = some ls →
      ¬ls.Perm c.literals) (room : s.propagator.RoomFor c) :
    ∃ d q, s.database.insert s.formula s.propagator c =
        .ok (d, s.formula.push c, q, s.formula.size) ∧
      Filed n k kind
        { s with database := d, formula := s.formula.push c, propagator := q } := by
  obtain ⟨d, q, inserted, files, kind_eq⟩ :=
    filed.files.insert_new filed.input_le plain.present novel room
  refine ⟨d, q, inserted, filed.numVars_eq, filed.inputCount_eq, ?_, filed.plain.push plain,
    files.indexes, files.registers, kind_eq.trans filed.kind_eq⟩
  rw [Formula.size_push]
  exact Nat.le_succ_of_le filed.input_le

/-- Storing a clause succeeds if the literals that it watches have lists. -/
theorem insert (filed : s.Filed n k kind) {c : Clause} (plain : c.Plain)
    (room : s.propagator.RoomFor c) :
    ∃ d g q place, s.database.insert s.formula s.propagator c = .ok (d, g, q, place) ∧
      s.formula.Stores c g place ∧
      Filed n k kind { s with database := d, formula := g, propagator := q } := by
  by_cases known : ∃ place stored, s.formula.inputCount ≤ place ∧
      s.formula.clauses[place]? = some stored ∧ ∀ l, l ∈ c.literals ↔ l ∈ stored.literals
  · obtain ⟨place, stored, learnt, at_place, alike⟩ := known
    have distinct := filed.plain.distinct (Formula.literalsAt_of_clause at_place)
    obtain ⟨q, inserted, filed_next⟩ :=
      filed.insert_stored learnt at_place (perm_of_alike plain.distinct distinct alike) room
    exact ⟨_, _, q, place, inserted, .again learnt at_place alike, filed_next⟩
  · have novel : ∀ place stored, s.formula.inputCount ≤ place →
        s.formula.clauses[place]? = some stored → ¬∀ l, l ∈ c.literals ↔ l ∈ stored.literals :=
      fun place stored learnt at_place alike => known ⟨place, stored, learnt, at_place, alike⟩
    have no_perm : ∀ {place ls}, s.formula.inputCount ≤ place →
        s.formula.literalsAt place = some ls → ¬ls.Perm c.literals := by
      intro place ls learnt found perm
      obtain ⟨stored, at_place, rfl⟩ := Formula.literalsAt_eq_some.1 found
      exact novel place stored learnt at_place fun l => perm.symm.mem_iff
    obtain ⟨d, q, inserted, filed_next⟩ := filed.insert_new plain no_perm room
    exact ⟨d, _, q, _, inserted, .new novel, filed_next⟩

/-- A reduction succeeds, and what it leaves is filed. -/
theorem reduce (filed : s.Filed n k kind) :
    ∃ d g q removed, ∃ moved, s.database.reduce s.formula s.trail s.propagator =
        .ok (d, g, s.trail.remap moved, q, removed) ∧
      Filed n k kind ⟨d, g, s.trail.remap moved, q⟩ ∧ s.formula.Thins g moved := by
  have thins := Reduction.thins_compact s.formula (s.database.doomed s.formula s.trail)
  obtain ⟨q, renewed, kind_eq, registers⟩ := Propagator.renew_ok filed.registers thins
  have files := fun reduction => filed.files.reduced reduction registers
  refine ⟨_, _, _, _, _, Database.reduce_eq rfl renewed, ⟨filed.numVars_eq, filed.inputCount_eq,
    thins.input_le filed.input_le, thins.plain filed.plain, (files _).indexes,
    (files none).registers, ?_⟩, thins⟩
  change Propagator.kind (if _ then _ else _) = kind
  split
  next => exact filed.kind_eq
  next => exact kind_eq.trans filed.kind_eq

/-- Every operation that succeeds keeps the clauses filed. -/
theorem operate {op : Operation} (filed : s.Filed n k kind) (plain : op.Plain)
    (ran : s.operate op = .ok next) : next.Filed n k kind := by
  cases op with
  | move m =>
    obtain ⟨t, _, same⟩ := bind_eq_ok.1 ran
    cases same
    exact { filed with }
  | propagate =>
    obtain ⟨⟨q, u, g, conflict⟩, propagated, same⟩ := bind_eq_ok.1 ran
    cases same
    obtain ⟨rearranges, kind_eq, registers⟩ :=
      Propagator.registers_of_propagate filed.registers filed.plain propagated
    exact filed.of_same rearranges.same rearranges.plain rfl registers kind_eq
  | learn c =>
    obtain ⟨⟨d, g, q, place⟩, inserted, same⟩ := bind_eq_ok.1 ran
    cases same
    obtain ⟨_, _, _, _, inserted', _, filed_next⟩ :=
      filed.insert plain (Database.roomFor_of_insert inserted)
    cases inserted.symm.trans inserted'
    exact filed_next
  | bump places =>
    obtain ⟨g, bumped, same⟩ := bind_eq_ok.1 ran
    cases same
    exact filed.of_rescored (Database.rescored_of_bumps bumped) rfl rfl
  | conflict =>
    cases ran
    obtain ⟨rescored, index_eq, _⟩ := s.database.onConflict_rescored s.formula
    exact filed.of_rescored rescored index_eq rfl
  | reduce =>
    obtain ⟨⟨d, g, u, q, removed⟩, reduced, same⟩ := bind_eq_ok.1 ran
    cases same
    obtain ⟨_, _, _, _, _, reduced', filed_next, _⟩ := filed.reduce
    cases reduced.symm.trans reduced'
    exact filed_next

end Filed

/-! ### Within bounds everything succeeds -/

/-- Formula and trail are in order, each in itself and with each other. -/
structure InOrder (s : Machinery) : Prop where
  fits : s.trail.Fits s.formula
  stacked : s.trail.Stacked

namespace InOrder

variable {n k : Nat} {kind : PropagatorKind} {s : Machinery}

/-- Every permitted operation succeeds. -/
theorem operate {op : Operation} (inOrder : s.InOrder) (filed : s.Filed n k kind)
    (permitted : s.permits n op) : ∃ next, s.operate op = .ok next ∧ next.InOrder := by
  obtain ⟨fits, stacked⟩ := inOrder
  obtain rfl := filed.numVars_eq
  cases op with
  | move m =>
    have regular : s.trail.Regular s.formula.numVars := ⟨fits.recorded, stacked⟩
    obtain ⟨u, moved, regular_u⟩ := regular.move permitted
    exact ⟨{ s with trail := u }, by simp only [Machinery.operate, moved, ok_bind, pure_eq_ok],
      ⟨fits.wellFormed, regular_u.recorded⟩, regular_u.stacked⟩
  | propagate =>
    obtain ⟨q, u, g, conflict, ran, grows, fits_u⟩ :=
      Propagator.propagate_returns filed.registers fits
    exact ⟨{ s with propagator := q, trail := u, formula := g },
      by simp only [Machinery.operate, ran, ok_bind, pure_eq_ok], fits_u, stacked.of_extends grows⟩
  | learn c =>
    obtain ⟨plain, inside⟩ := permitted
    have room := Propagator.roomFor_of_declared filed.registers (c := c) fun l member =>
      (inside l (mem_of_mem_watchedOf member)).2
    obtain ⟨d, g, q, place, inserted, stores, _⟩ := filed.insert plain room
    refine ⟨{ s with database := d, formula := g, propagator := q },
      by simp only [Machinery.operate, inserted, ok_bind, pure_eq_ok],
      ⟨stores.wellFormed fits.wellFormed plain inside, ?_⟩, stacked⟩
    rw [stores.numVars_eq]
    exact fits.recorded
  | bump places =>
    obtain ⟨g, ran, rescored⟩ := s.database.bumps_ok permitted
    exact ⟨{ s with formula := g }, by simp only [Machinery.operate, ran, ok_bind, pure_eq_ok],
      fits.rearranged ⟨rescored.same, rescored.plain filed.plain⟩ fits.recorded, stacked⟩
  | conflict =>
    obtain ⟨rescored, _⟩ := s.database.onConflict_rescored s.formula
    exact ⟨_, rfl, fits.rearranged ⟨rescored.same, rescored.plain filed.plain⟩ fits.recorded,
      stacked⟩
  | reduce =>
    obtain ⟨d, g, q, removed, moved, ran, _, thins⟩ := filed.reduce
    refine ⟨⟨d, g, s.trail.remap moved, q⟩,
      by simp only [Machinery.operate, ran, ok_bind, pure_eq_ok],
      ⟨thins.wellFormed fits.wellFormed, ?_⟩, stacked.remap⟩
    rw [thins.numVars_eq]
    exact fits.recorded.remap

end InOrder

/-! ### From the start -/

/-- New parts can be made for a constructed formula. -/
theorem make_ok {f : Formula} (constructed : f.Constructed) (kind : PropagatorKind)
    (policy : DatabaseKind) (options : Options) :
    ∃ s, make kind policy options f = .ok s ∧ s.Filed f.numVars f.size kind ∧ s.InOrder := by
  obtain ⟨wellFormed, all_input⟩ := constructed.wellFormed
  obtain ⟨p, made, kind_eq, registers, _⟩ := Propagator.make_ok kind wellFormed
  -- There are no learnt clauses yet, so no two of them are alike.
  have once : f.LearntOnce := by
    intro place _ ls _ learnt _ found
    have inside := Formula.lt_size_of_literalsAt found
    omega
  have index_eq : (Database.make policy f options).index = Database.indexOf f := by
    cases policy <;> rfl
  have regular := Trail.regular_empty f.numVars
  refine ⟨⟨.make policy f options, f, .empty f.numVars, p⟩,
    by simp only [make, made, ok_bind, pure_eq_ok], ?_, ⟨wellFormed, regular.recorded⟩,
    regular.stacked⟩
  exact ⟨rfl, all_input, wellFormed.input_le, wellFormed.plain,
    Database.indexes_indexOf index_eq wellFormed.present once, registers, kind_eq⟩

variable {n k : Nat} {kind : PropagatorKind} {s next : Machinery} {ops : List Operation}

theorem Filed.run (filed : s.Filed n k kind) (plain : ∀ op ∈ ops, op.Plain)
    (ran : ops.foldlM Machinery.operate s = .ok next) : next.Filed n k kind :=
  run_holds (fun filed plain ran => filed.operate plain ran) ops plain filed ran

theorem InOrder.run (inOrder : s.InOrder) (filed : s.Filed n k kind)
    (permitted : Permitted (permits n) Machinery.operate ops s) :
    ∃ next, ops.foldlM Machinery.operate s = .ok next ∧ next.Filed n k kind := by
  have step : ∀ {s : Machinery} {op : Operation}, s.Filed n k kind ∧ s.InOrder → s.permits n op →
      ∃ next, s.operate op = .ok next ∧ next.Filed n k kind ∧ next.InOrder := by
    rintro s op ⟨filed, inOrder⟩ permitted
    obtain ⟨next, ran, inOrder_next⟩ := inOrder.operate filed permitted
    exact ⟨next, ran, filed.operate (plain_of_permits permitted) ran, inOrder_next⟩
  obtain ⟨next, ran, filed_next, _⟩ := Permitted.run_ok step ops permitted ⟨filed, inOrder⟩
  exact ⟨next, ran, filed_next⟩

end Machinery

end ClauseLearning
