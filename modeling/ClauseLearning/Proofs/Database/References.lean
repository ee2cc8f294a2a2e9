import ClauseLearning.Proofs.Database.Filing

/-!
# References survive a reduction

Clauses are referred to by place, and three parts hold such references: the reasons on the trail,
the watch lists and the index. A reduction renews each of them by other means. Reasons are
renumbered, watch lists lose all learnt clauses and get them back, and the index is built anew.

Main statement: if all references are right before a reduction, it succeeds and they are right
afterwards. Input clauses stay where they are, surviving clauses are unchanged and in their old
order, and a reason names the clause that it named before. A clause that is learnt again is found
where it is stored, and storing it keeps the references right.
-/

namespace ClauseLearning

/-- One step is another one after clauses have moved: the reason, and nothing else, may differ, and
the clause that it names has not been removed. -/
structure Step.Renumbers (f g : Formula) (moved : Nat → Option Nat) (s r : Step) : Prop where
  rest_eq : { r with reason := s.reason } = s
  decision : s.reason = .decision → r.reason = .decision
  clause : ∀ {place : Nat}, s.reason = .clause place → ∃ new c, r.reason = .clause new ∧
    (place < f.inputCount ∧ new = place ∨ moved place = some new) ∧
    f.clauses[place]? = some c ∧ g.clauses[new]? = some c

/-- One trail is another one after clauses have moved. -/
structure Trail.Renumbers (f g : Formula) (moved : Nat → Option Nat) (t u : Trail) : Prop where
  rest_eq : { u with steps := t.steps } = t
  size_eq : u.size = t.size
  step : ∀ {i : Nat} {s r : Step}, t.steps[i]? = some s → u.steps[i]? = some r →
    s.Renumbers f g moved r

/-- The places of the reasons on a trail are places of clauses. -/
def Trail.ReasonsStored (t : Trail) (f : Formula) : Prop :=
  ∀ s ∈ t.steps, ∀ place, s.reason = .clause place → place < f.size

instance (t : Trail) (f : Formula) : Decidable (t.ReasonsStored f) :=
  decidable_of_iff (∀ s ∈ t.steps, ∀ place ∈ s.reason.clause?, place < f.size) <| by
    refine forall₂_congr fun s _ => forall_congr' fun place => ?_
    cases s.reason <;> simp [Reason.clause?]

theorem Formula.Thins.renumbers {f g : Formula} {moved : Nat → Option Nat} {t : Trail}
    (thins : f.Thins g moved) (stored : t.ReasonsStored f)
    (stays : ∀ s ∈ t.steps, ∀ place, s.reason = .clause place → f.inputCount ≤ place →
      (moved place).isSome) : t.Renumbers f g moved (t.remap moved) where
  rest_eq := rfl
  size_eq := Trail.size_remap
  step := by
    intro i s r at_i at_r
    obtain ⟨_, same, rfl⟩ := Trail.getElem?_remap_eq_some.1 at_r
    cases at_i.symm.trans same
    refine ⟨rfl, Trail.remap_decision.2, fun {place} reason => ?_⟩
    have on_trail := Array.mem_of_getElem? at_i
    have at_place := Array.getElem?_eq_getElem (stored s on_trail place reason)
    by_cases input : place < f.inputCount
    · obtain ⟨untouched, unmoved⟩ := thins.input input
      refine ⟨place, _, ?_, .inl ⟨input, rfl⟩, at_place, untouched.trans at_place⟩
      simp [reason, Reason.remap, unmoved]
    · obtain ⟨new, moved_to⟩ :=
        Option.isSome_iff_exists.1 (stays s on_trail place reason (Nat.not_lt.1 input))
      refine ⟨new, _, ?_, .inr moved_to, at_place, (thins.forth moved_to).2.trans at_place⟩
      simp [reason, Reason.remap, moved_to]

/-- Reasons that have been renumbered are places of clauses again. -/
theorem Trail.Renumbers.stored {f g : Formula} {moved : Nat → Option Nat} {t u : Trail}
    (renumbers : t.Renumbers f g moved u) : u.ReasonsStored g := by
  intro r member place reason
  obtain ⟨i, at_i⟩ := Array.mem_iff_getElem?.1 member
  have inside : i < t.size := renumbers.size_eq ▸ Trail.lt_size at_i
  have step := renumbers.step (Array.getElem?_eq_getElem inside) at_i
  cases before : t.steps[i].reason with
  | decision => exact absurd ((step.decision before).symm.trans reason) (by simp)
  | clause old =>
    obtain ⟨new, c, named, _, _, at_new⟩ := step.clause before
    cases named.symm.trans reason
    exact (Array.getElem?_eq_some_iff.1 at_new).1

namespace Database

/-- All references to clauses are right: no clause is marked as deleted, the reasons on the trail
are places of clauses, the index has the learnt clauses and the watch lists register all clauses. -/
structure Refers (d : Database) (f : Formula) (t : Trail) (p : Propagator) : Prop where
  present : ∀ {place : Nat} {c : Clause}, f.clauses[place]? = some c → c.deleted = false
  reasons : t.ReasonsStored f
  indexes : d.Indexes f
  registers : ∀ w ∈ p.watches?, w.Registers f

namespace Refers

variable {d : Database} {f : Formula} {t : Trail} {p : Propagator}

theorem files (refers : d.Refers f t p) : d.Files f p :=
  ⟨refers.present, refers.indexes, refers.registers⟩

/-- A learnt clause that is learnt again, in whatever order of literals, is found where it is
stored, and takes over the new order. -/
theorem insert_stored (refers : d.Refers f t p) {place : Nat} {ls : List Literal} {c : Clause}
    (learnt : f.inputCount ≤ place) (found : f.literalsAt place = some ls)
    (perm : c.literals.Perm ls) (declared : ∀ l ∈ watchedOf c.literals, l.var ≤ f.numVars) :
    ∃ g q, d.insert f p c = .ok (d, g, q, place) ∧ d.Refers g t q := by
  obtain ⟨stored, at_place, rfl⟩ := Formula.literalsAt_eq_some.1 found
  obtain ⟨q, inserted, files, _⟩ := refers.files.insert_stored learnt at_place perm
    (Propagator.roomFor_of_declared refers.registers declared)
  have same : f.SameClauses (f.withClause place (stored.reorder c.literals)) :=
    .withClause at_place perm.symm
  refine ⟨_, q, inserted, files.present, fun s member place reason => ?_, files.indexes,
    files.registers⟩
  rw [same.size_eq]
  exact refers.reasons s member place reason

/-- Whatever clauses are removed, the propagator can be renewed. -/
theorem renewed (refers : d.Refers f t p) {g : Formula} {moved : Nat → Option Nat}
    (thins : f.Thins g moved) :
    ∃ q, (p.dropFrom f.inputCount).addAll g.learntRegion = .ok q ∧ q.kind = p.kind ∧
      ∀ w ∈ q.watches?, w.Registers g :=
  Propagator.renew_ok refers.registers thins

/-- What a reduction leaves refers to the formula without the removed clauses. -/
theorem reduced (refers : d.Refers f t p) {gone : List Nat} {u : Trail} {q : Propagator}
    (reduction : Option Reduction) (reasons : u.ReasonsStored (Reduction.compact f gone))
    (registers : ∀ w ∈ q.watches?, w.Registers (Reduction.compact f gone)) :
    Refers ⟨if gone = [] then d.index else indexOf (Reduction.compact f gone), reduction⟩
      (Reduction.compact f gone) u (if gone = [] then p else q) :=
  have files := refers.files.reduced reduction registers
  ⟨files.present, reasons, files.indexes, files.registers⟩

end Refers

/-- A reduction keeps all references right. The input stays, the clauses that are left move up in
their order, and only the places of reasons change on the trail. Afterwards a learnt clause is found
by its literals in any order, if those in front are over the variables of the formula. -/
theorem reduce_refers {d : Database} {f : Formula} {t : Trail} {p : Propagator}
    (refers : d.Refers f t p) :
    ∃ next g u q removed moved, d.reduce f t p = .ok (next, g, u, q, removed) ∧
      f.Thins g moved ∧ g.size + removed = f.size ∧
      (∀ {a b first second : Nat}, moved a = some first → moved b = some second → a < b →
        first < second) ∧
      t.Renumbers f g moved u ∧ next.Refers g u q ∧ q.kind = p.kind ∧
      ∀ {place : Nat} {ls : List Literal} {c : Clause}, g.inputCount ≤ place →
        g.literalsAt place = some ls → c.literals.Perm ls →
        (∀ l ∈ watchedOf c.literals, l.var ≤ g.numVars) →
        ∃ h r, next.insert g q c = .ok (next, h, r, place) ∧ next.Refers h u r := by
  have thins := Reduction.thins_compact f (d.doomed f t)
  obtain ⟨q, renewed, kind_eq, registers⟩ := refers.renewed thins
  -- Reasons are locked, so each of them survives under a new place.
  have renumbers := thins.renumbers refers.reasons fun s member place reason learnt => by
    obtain ⟨i, at_i⟩ := Array.mem_iff_getElem?.1 member
    exact Reduction.newPlace_isSome learnt (refers.reasons s member place reason)
      (not_mem_doomed at_i reason)
  have after := fun reduction => refers.reduced reduction renumbers.stored registers
  refine ⟨_, _, _, _, _, _, reduce_eq rfl renewed, thins, d.size_compact_doomed f t,
    Reduction.newPlace_lt_newPlace, renumbers, after _, ?_, (after _).insert_stored⟩
  split
  next => rfl
  next => exact kind_eq

/-- Of two clauses that no step needs one goes, and a reason behind it moves up. When its clause is
learnt again with other literals in front, it is found at its new place. -/
theorem reduce_refers_locked :
    ∃ (d : Database) (f : Formula) (t : Trail) (p : Propagator), d.Refers f t p ∧
      p.kind = .watched ∧ (d.doomed f t).length = 1 ∧
      (∃ s, t.steps[2]? = some s ∧ s.reason = .clause 2) ∧
      ∃ next g u q removed new, d.reduce f t p = .ok (next, g, u, q, removed) ∧
        next.Refers g u q ∧ (∃ r, u.steps[2]? = some r ∧ r.reason = .clause new) ∧
        g.literalsAt new = some [⟨1, true⟩, ⟨2, false⟩, ⟨3, true⟩] ∧
        ∃ h r, next.insert g q (.ofLearnt [⟨3, true⟩, ⟨1, true⟩, ⟨2, false⟩] 3) =
          .ok (next, h, r, new) := by
  have input : ∃ (f : Formula) (t : Trail), f.WellFormed ∧ f.LearntOnce ∧ t.ReasonsStored f ∧
      f.inputCount = 1 ∧ f.numVars = 3 ∧ (Reduction.unlocked f t).length = 2 ∧
      (Reduction.candidates f t).length = 2 ∧
      f.literalsAt 2 = some [⟨1, true⟩, ⟨2, false⟩, ⟨3, true⟩] ∧
      ∃ s, t.steps[2]? = some s ∧ s.reason = .clause 2 :=
    ⟨⟨#[⟨[⟨1, true⟩, ⟨2, true⟩, ⟨3, true⟩], 0, 0.0, false, false⟩,
        .ofLearnt [⟨1, false⟩, ⟨2, true⟩, ⟨3, true⟩] 3,
        .ofLearnt [⟨1, true⟩, ⟨2, false⟩, ⟨3, true⟩] 3,
        .ofLearnt [⟨1, true⟩, ⟨2, true⟩, ⟨3, false⟩] 3], 3, 1⟩,
      { steps := #[⟨⟨1, false⟩, 1, .decision⟩, ⟨⟨3, false⟩, 2, .decision⟩,
          ⟨⟨2, false⟩, 2, .clause 2⟩]
        head := 2
        levelOf := #[0, 1, 2, 2]
        positionOf := #[0, 0, 2, 1]
        levelStarts := #[0, 1]
        values := ⟨#[none, some false, some false, some false], 3⟩ },
      by decide, by decide, by decide, rfl, rfl, by decide +kernel, by decide +kernel, rfl, _, rfl,
      rfl⟩
  obtain ⟨f, t, wellFormed, once, reasons, inputCount_eq, numVars_eq, unlocked, candidates, found,
    s, at_two, reason⟩ := input
  obtain ⟨w, _, registers⟩ := Watches.ofFormula_registers wellFormed
  have refers : (make .byLbd f Options.standard).Refers f t (.watched w 0) :=
    ⟨wellFormed.present, reasons, indexes_indexOf rfl wellFormed.present once,
      by rintro _ ⟨⟩; exact registers⟩
  obtain ⟨next, g, u, q, removed, moved, ran, thins, _, _, renumbers, after, _, again⟩ :=
    reduce_refers refers
  have at_u := Array.getElem?_eq_getElem (renumbers.size_eq.symm ▸ Trail.lt_size at_two)
  obtain ⟨new, c, renamed, where_to, at_f, at_g⟩ := (renumbers.step at_two at_u).clause reason
  have literals : c.literals = [⟨1, true⟩, ⟨2, false⟩, ⟨3, true⟩] :=
    Option.some.inj ((Formula.literalsAt_of_clause at_f).symm.trans found)
  have learnt : f.inputCount ≤ new := by
    rcases where_to with ⟨input, _⟩ | moved_to
    · omega
    · exact (thins.forth moved_to).1
  have at_new := Formula.literalsAt_of_clause at_g
  rw [literals] at at_new
  obtain ⟨h, v, stored, _⟩ := again (c := .ofLearnt [⟨3, true⟩, ⟨1, true⟩, ⟨2, false⟩] 3)
    (thins.inputCount_eq ▸ learnt) at_new (by decide) (by
      rw [thins.numVars_eq, numVars_eq]
      decide)
  refine ⟨_, f, t, _, refers, rfl, ?_, ⟨s, at_two, reason⟩, next, g, u, q, removed, new, ran, after,
    ⟨_, at_u, renamed⟩, at_new, h, v, stored⟩
  rw [doomed, make, Reduction.length_selected, unlocked, candidates]
  rfl

end Database

end ClauseLearning
